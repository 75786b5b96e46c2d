import Osrv.Tcp.Keeps
import Osrv.Tcp.Lines

/-!
# Requests in pieces

TCP may deliver the bytes of a request in any pieces. `do_process` takes the command,
the key, the line end and the size each from what a single call of `recv` returned,
and a round that comes to an end starts over. `segmentation_agrees_iff` says which
deliveries are answered like the request in one piece: a line needs its first piece
to reach up to the end of its key, and a `PUT` needs both of its lines in the first
piece. In any other delivery the first piece is taken for a request of its own.
-/

namespace Osrv
namespace Tcp

open Bytes Net Obj Sfs

/-! ### Requests -/

/-- A key as a line can give it. -/
abbrev Key : Type := { key : CString // Nameable key }

/-- A size as a line can give it. -/
abbrev Size : Type := { size : List UInt8 // IsSize size }

/-- The requests of a single line. -/
inductive Query
  | get
  | has
  | del
  deriving DecidableEq

def Query.word : Query → CString
  | .get => cstr GET
  | .has => cstr HAS
  | .del => cstr DEL

/-- The requests of the protocol, a `PUT` without its payload. -/
inductive Request
  | line (q : Query) (key : Key)
  | put (key : Key) (size : Size)

/-- The request on the wire. -/
def Request.bytes : Request → List UInt8
  | .line q key => lineOf q.word key.1 ++ [10]
  | .put key size => lineOf (cstr PUT) key.1 ++ 10 :: (size.1 ++ [10])

/-- What has to come in the first piece. -/
def Request.needed : Request → List UInt8
  | .line q key => lineOf q.word key.1
  | .put key size => (Request.put key size).bytes

/-- What may follow the request before the client waits: nothing behind a line, and the
payload of a `PUT`, of which the first bytes may come with the end of the lines. -/
def Request.Followed : Request → List UInt8 → List Segment → Prop
  | .line _ _, first, rest => first = [] ∧ rest = []
  | .put _ _, _, _ => True

/-! ### Deliveries -/

/-- The bytes of the pieces. -/
def joined (p : List Segment) : List UInt8 := p.flatMap Subtype.val

/-- The first piece takes in what is needed. -/
def Reaches (r : Request) (p : List Segment) : Prop :=
  ∃ x xs, p = x :: xs ∧ r.needed <+: x.1

/-- The last piece with further bytes behind it. -/
def attach (first : List UInt8) : List Segment → List Segment
  | [] => []
  | [x] => [⟨x.1 ++ first, List.append_ne_nil_of_left_ne_nil x.2 _⟩]
  | x :: y :: xs => x :: attach first (y :: xs)

/-- A connection on which a request comes in as the pieces `p`. -/
def arrive (p : List Segment) (first : List UInt8) (rest : List Segment)
    (store : Store (Option (List UInt8)) SEXP) : World where
  input := ⟨attach first p ++ rest, .waiting⟩
  conn := ⟨0, []⟩
  store := store
  mallocs := 0

/-- The reply and the store behind it. There is nothing if the server does not get
through the request. -/
def effect (r : Option (Status × World)) :
    Option (List UInt8 × Store (Option (List UInt8)) SEXP) :=
  r.map fun x => (x.2.conn.out, x.2.store)

/-- Two deliveries of a request have the same reply and the same effect on the store,
for whatever the store holds and whatever follows the request. -/
def Agree (r : Request) (p q : List Segment) : Prop :=
  ∀ send malloc ops store first rest, run ops = some store → r.Followed first rest →
    effect (do_process send malloc (arrive p first rest store))
      = effect (do_process send malloc (arrive q first rest store))

theorem attach_nil (p : List Segment) : attach [] p = p := by
  induction p with
  | nil => rfl
  | cons x xs ih =>
    cases xs with
    | nil => simp [attach]
    | cons y ys => rw [attach, ih]

/-! ### What was sent stays sent -/

theorem send_buf_extends (send : SendFn) (w : World) (buf : List UInt8) :
    w.conn.out <+: (send_buf send w buf).2.conn.out :=
  sendAll_extends send MAX_SEND w.conn buf

/-- Nothing that a request does takes back what was sent. -/
theorem keeps_sent (send : SendFn) (out : List UInt8) :
    Keeps send fun w => out <+: w.conn.out where
  sent w buf h := h.trans (send_buf_extends send w buf)
  stored w sWhat h := h.trans (fd_store_extends send w.conn sWhat)
  got _ _ _ _ _ h _ := h
  added _ _ _ h := h
  input _ _ h := h
  mallocs _ _ h := h

/-- **What was sent stays sent**, for as many rounds as there are. -/
theorem loop_extends {send : SendFn} {malloc : Malloc} {n : ℕ} {buf : Memory} {w w' : World}
    {st : Status} (h : loop send malloc n buf w = some (st, w')) : w.conn.out <+: w'.conn.out := by
  induction n generalizing buf w with
  | zero => exact absurd h (by simp [loop])
  | succ n ih =>
    simp only [loop] at h
    split at h
    · obtain rfl := (Prod.mk.inj (Option.some.inj h)).2
      exact List.prefix_refl _
    · obtain rfl := (Prod.mk.inj (Option.some.inj h)).2
      exact List.prefix_refl _
    · obtain rfl := (Prod.mk.inj (Option.some.inj h)).2
      exact List.prefix_refl _
    · split at h
      · obtain rfl := (Prod.mk.inj (Option.some.inj h)).2
        exact List.prefix_refl _
      · simp only [Option.bind_eq_bind, Option.bind_eq_some_iff] at h
        obtain ⟨⟨buf', flow, w₁⟩, hrequest, h⟩ := h
        have hone : w.conn.out <+: w₁.conn.out :=
          (keeps_sent send w.conn.out).request
            (w := { w with input := (recv (MAX_BUF - 1) w.input).2 }) (List.prefix_refl _) hrequest
        cases flow with
        | again => exact hone.trans (ih h)
        | leave =>
          obtain rfl := (Prod.mk.inj (Option.some.inj h)).2
          exact hone
        | blocked =>
          obtain rfl := (Prod.mk.inj (Option.some.inj h)).2
          exact hone
        | jumped =>
          obtain rfl := (Prod.mk.inj (Option.some.inj h)).2
          exact hone

/-! ### Rounds -/

section Round

variable {send : SendFn} {malloc : Malloc} {n : ℕ} {buf buf' : Memory} {w w' : World}
  {x : Segment} {xs : List Segment} {flow : Flow}

theorem loop_fault (hfit : x.1.length ≤ MAX_BUF - 1)
    (h : request send malloc buf x.1 { w with input := ⟨xs, .waiting⟩ } = none) :
    loop send malloc (n + 1) buf { w with input := ⟨x :: xs, .waiting⟩ } = none := by
  have hone : ¬ x.1.length < 1 := Nat.not_lt.mpr (List.length_pos_of_ne_nil x.2)
  simp only [loop, recv_cons hfit, hone, if_false, h]
  rfl

theorem loop_again (hfit : x.1.length ≤ MAX_BUF - 1)
    (h : request send malloc buf x.1 { w with input := ⟨xs, .waiting⟩ } = some (buf', .again, w')) :
    loop send malloc (n + 1) buf { w with input := ⟨x :: xs, .waiting⟩ }
      = loop send malloc n buf' w' := by
  have hone : ¬ x.1.length < 1 := Nat.not_lt.mpr (List.length_pos_of_ne_nil x.2)
  simp only [loop, recv_cons hfit, hone, if_false, h]
  rfl

/-- A round that does not come to the end of the loop's body is the last one. -/
theorem loop_stop (hfit : x.1.length ≤ MAX_BUF - 1) (hflow : flow ≠ .again)
    (h : request send malloc buf x.1 { w with input := ⟨xs, .waiting⟩ } = some (buf', flow, w')) :
    ∃ st, loop send malloc (n + 1) buf { w with input := ⟨x :: xs, .waiting⟩ }
      = some (st, w') := by
  have hone : ¬ x.1.length < 1 := Nat.not_lt.mpr (List.length_pos_of_ne_nil x.2)
  simp only [loop, recv_cons hfit, hone, if_false, h]
  cases flow with
  | again => exact absurd rfl hflow
  | leave => exact ⟨.closed, rfl⟩
  | blocked => exact ⟨.waiting, rfl⟩
  | jumped => exact ⟨.jumped, rfl⟩

theorem loop_idle : loop send malloc (n + 1) buf { w with input := ⟨[], .waiting⟩ }
    = some (.waiting, { w with input := ⟨[], .waiting⟩ }) := rfl

theorem request_stop {bs : List UInt8}
    (h : commandLine (write buf 0 (bs ++ [0])) = some (buf', none)) :
    request send malloc buf bs w = some (buf', .leave, w) := by
  simp only [request, h]
  rfl

theorem request_perform {bs : List UInt8} {c : Command}
    (h : commandLine (write buf 0 (bs ++ [0])) = some (buf', some c)) :
    request send malloc buf bs w
      = (perform send malloc c bs.length buf' w).map fun r => (buf', r.1, r.2) := by
  simp only [request, h, Option.bind_eq_bind, Option.bind_some]
  cases perform send malloc c bs.length buf' w <;> rfl

end Round

/-! ### Answering a line -/

/-- What a line is answered with. -/
def answer (send : SendFn) (q : Query) (key : CString) (w : World) : Option (Flow × World) :=
  match q with
  | .get => get send false key w
  | .has => get send true key w
  | .del => del send key w

section Answer

variable {send : SendFn} {malloc : Malloc} {q : Query} {key : CString} {w : World}

theorem perform_query (d : Option ℕ) (be : ℕ) (buf : Memory) :
    perform send malloc ⟨d, q.word, key⟩ be buf w = answer send q key w := by
  cases q <;> rfl

theorem word_upper (q : Query) : ∀ b ∈ q.word.bytes, isUpper b = true := by
  cases q with
  | get => exact List.all_eq_true.mp (by decide : GET.all isUpper = true)
  | has => exact List.all_eq_true.mp (by decide : HAS.all isUpper = true)
  | del => exact List.all_eq_true.mp (by decide : DEL.all isUpper = true)

variable (send malloc) in
/-- The whole line is answered. -/
theorem request_line (hkey : Nameable key) (hfit : (lineOf q.word key).length < MAX_BUF)
    (buf : Memory) :
    ∃ buf', request send malloc buf (lineOf q.word key ++ [10]) w
      = (answer send q key w).map fun r => (buf', r.1, r.2) := by
  rw [length_lineOf] at hfit
  have hat : At (write buf 0 (lineOf q.word key ++ [10] ++ [0])) 0
      (lineOf q.word key ++ 10 :: [0]) := by
    have hshape : lineOf q.word key ++ 10 :: [0] = lineOf q.word key ++ [10] ++ [0] := by simp
    rw [hshape]
    exact at_write _ _ _
  obtain ⟨buf', hline, -⟩ := commandLine_eq hat (word_upper q) hkey hfit
  exact ⟨buf', by rw [request_perform hline, perform_query]⟩

variable (send malloc) in
/-- A line that ends early is answered for as much of the key as there is. -/
theorem request_line_open (hten : (10 : UInt8) ∉ key.bytes)
    (hfront : ∀ b ∈ key.bytes.head?, isBlank b = false)
    (hfit : (lineOf q.word key).length < MAX_BUF) (buf : Memory) :
    ∃ buf', request send malloc buf (lineOf q.word key) w
      = (answer send q key w).map fun r => (buf', r.1, r.2) := by
  rw [length_lineOf] at hfit
  obtain ⟨buf', hline⟩ := commandLine_open (at_write buf 0 (lineOf q.word key ++ [0]))
    (word_upper q) hten hfront hfit
  exact ⟨buf', by rw [request_perform hline, perform_query]⟩

variable (send malloc) in
/-- A piece of a command, or a newline alone, ends the connection. -/
theorem request_capitals {cmd : CString} (hcmd : ∀ b ∈ cmd.bytes, isUpper b = true)
    (hfit : cmd.length < MAX_BUF) (buf : Memory) :
    ∃ buf', request send malloc buf cmd.bytes w = some (buf', .leave, w) :=
  ⟨_, request_stop (commandLine_stop (at_write buf 0 (cmd.bytes ++ [0])) hcmd hfit)⟩

variable (send malloc) in
theorem request_newline (buf : Memory) :
    ∃ buf', request send malloc buf [10] w = some (buf', .leave, w) := by
  obtain ⟨buf', hline⟩ := commandLine_newline (at_write buf 0 (10 :: [0]))
  exact ⟨buf', request_stop hline⟩

/-- An answer does not depend on what is still to come. -/
theorem answer_input (i : Input) : answer send q key { w with input := i }
    = (answer send q key w).map fun r => (r.1, { r.2 with input := i }) := by
  -- the three commands that read the store send and look up, but do not receive
  have hget : ∀ has, get send has key { w with input := i }
      = (get send has key w).map fun r => (r.1, { r.2 with input := i }) := by
    intro has
    simp only [get]
    cases obj_get key false w.store with
    -- a value is sent with `fd_store`
    | none => rfl
    | some r =>
      obtain ⟨o, store⟩ := r
      cases o with
      | none => rfl
      | some o =>
        simp only [Option.bind_eq_bind, Option.bind_some]
        cases has with
        | true => rfl
        | false =>
          simp only [Bool.false_eq_true, if_false]
          cases store.heap.load o with
          | none => rfl
          | some cell =>
            simp only [Option.bind_some]
            cases cell.val.obj with
            | none =>
              -- what is sent does not depend on the input
              have hsame : (send_buf send { w with input := i, store := store } (ascii "OK ?\n")).1
                  = (send_buf send { w with store := store } (ascii "OK ?\n")).1 := rfl
              have hconn : (send_buf send { w with input := i, store := store }
                    (ascii "OK ?\n")).2.conn
                  = (send_buf send { w with store := store } (ascii "OK ?\n")).2.conn := rfl
              dsimp only
              by_cases hres : (send_buf send { w with store := store } (ascii "OK ?\n")).1 ≠ 0
              · rw [if_pos hres, if_pos (hsame ▸ hres)]
                rfl
              · rw [if_neg hres, if_neg (hsame ▸ hres)]
                cases cell.val.sWhat with
                | none => rfl
                | some sWhat =>
                  simp only [Option.bind_some, hconn]
                  cases fd_store send (send_buf send { w with store := store }
                    (ascii "OK ?\n")).2.conn sWhat <;> rfl
            -- bytes are sent behind their length
            | some obj =>
              have hsame : (send_buf send { w with input := i, store := store }
                    (ascii "OK " ++ decimal cell.val.len ++ [10])).1
                  = (send_buf send { w with store := store }
                    (ascii "OK " ++ decimal cell.val.len ++ [10])).1 := rfl
              dsimp only
              by_cases hres : (send_buf send { w with store := store }
                  (ascii "OK " ++ decimal cell.val.len ++ [10])).1 ≠ 0
              · rw [if_pos hres, if_pos (hsame ▸ hres)]
                rfl
              · rw [if_neg hres, if_neg (hsame ▸ hres)]
                split <;> rfl
  cases q with
  | get => exact hget false
  | has => exact hget true
  | del =>
    simp only [answer, del]
    cases obj_get key true w.store with
    | none => rfl
    | some r => rfl

end Answer

/-! ### Where the first piece ends -/

/-- A piece that starts a line ends in its command, in its key, or behind its newline. -/
theorem cut_line {cmd key : CString} {x rest : List UInt8}
    (hcmd : ∀ b ∈ cmd.bytes, isUpper b = true) (hx : x <+: lineOf cmd key ++ 10 :: rest) :
    (∃ c : CString, x = c.bytes ∧ ∀ b ∈ c.bytes, isUpper b = true) ∨
      (∃ part : CString, x = lineOf cmd part ∧ part.bytes <+: key.bytes) ∨
      ∃ y, x = lineOf cmd key ++ 10 :: y ∧ y <+: rest := by
  have hcapitals : x <+: cmd.bytes →
      ∃ c : CString, x = c.bytes ∧ ∀ b ∈ c.bytes, isUpper b = true := by
    intro hpre
    exact ⟨⟨x, fun h => cmd.zero_notMem (hpre.subset h)⟩, rfl, fun b hb => hcmd b (hpre.subset hb)⟩
  obtain ⟨t, ht⟩ := hx
  rw [lineOf, List.append_assoc] at ht
  obtain ⟨as, hcut, -⟩ | ⟨bs, rfl, hrest⟩ := List.append_eq_append_iff.mp ht
  · exact Or.inl (hcapitals ⟨as, hcut.symm⟩)
  · cases bs with
    | nil => exact Or.inl (hcapitals (by rw [List.append_nil]))
    | cons b bs =>
      right
      have hbehind : 32 :: (key.bytes ++ 10 :: rest) = b :: (bs ++ t) := hrest
      obtain ⟨rfl, hkeyRest⟩ := List.cons.inj hbehind
      obtain ⟨cs, rfl, htail⟩ | ⟨as, hcut, -⟩ := List.append_eq_append_iff.mp hkeyRest
      · cases cs with
        | nil =>
          refine Or.inl ⟨key, ?_, List.prefix_refl _⟩
          rw [List.append_nil]
          rfl
        | cons c cs =>
          obtain ⟨rfl, rfl⟩ := List.cons.inj htail
          refine Or.inr ⟨cs, ?_, List.prefix_append _ _⟩
          rw [lineOf, List.append_assoc]
          rfl
      · have hpre : bs <+: key.bytes := ⟨as, hcut.symm⟩
        exact Or.inl ⟨⟨bs, fun h => key.zero_notMem (hpre.subset h)⟩, rfl, hpre⟩

/-- The beginning of a key does not start with a blank either. -/
theorem front_of_part {key part : CString} (hkey : Nameable key) (h : part.bytes <+: key.bytes) :
    ∀ b ∈ part.bytes.head?, isBlank b = false := by
  intro b hb
  obtain ⟨t, ht⟩ := h
  refine hkey.front b ?_
  rw [← ht, List.head?_append, Option.mem_def.mp hb]
  rfl

/-! ### Deliveries that agree -/

section Agree

variable {send : SendFn} {malloc : Malloc} {r : Request} {p q : List Segment}

theorem Request.bytes_ne_nil (r : Request) : r.bytes ≠ [] := by
  cases r with
  | line q key => exact List.append_ne_nil_of_right_ne_nil _ (List.cons_ne_nil _ _)
  | put key size => exact List.append_ne_nil_of_right_ne_nil _ (List.cons_ne_nil _ _)

/-- The request in one piece. -/
def Request.one (r : Request) : List Segment := [⟨r.bytes, r.bytes_ne_nil⟩]

theorem Agree.symm (h : Agree r p q) : Agree r q p :=
  fun send malloc ops store first rest hrun hfollow =>
    (h send malloc ops store first rest hrun hfollow).symm

theorem Agree.trans {o : List Segment} (h : Agree r p q) (h' : Agree r q o) : Agree r p o :=
  fun send malloc ops store first rest hrun hfollow =>
    (h send malloc ops store first rest hrun hfollow).trans
      (h' send malloc ops store first rest hrun hfollow)

theorem do_process_arrive (store : Store (Option (List UInt8)) SEXP) :
    do_process send malloc (arrive p [] [] store)
      = loop send malloc ((joined p).length + 1) (fun _ => 0)
        { arrive [] [] [] store with input := ⟨p, .waiting⟩ } := by
  rw [do_process, arrive, attach_nil, List.append_nil]
  rfl

/-- A line whose newline comes late is answered in the same way, and the newline then
ends the connection. -/
theorem line_agrees {q : Query} {key : CString} (hkey : Nameable key)
    (hfit : (lineOf q.word key ++ [10]).length < MAX_BUF) {x y : Segment}
    (hx : x.1 = lineOf q.word key ++ [10]) (hy : y.1 = lineOf q.word key) {nl : Segment}
    (hnl : nl.1 = [10]) (store : Store (Option (List UInt8)) SEXP) :
    effect (do_process send malloc (arrive [y, nl] [] [] store))
      = effect (do_process send malloc (arrive [x] [] [] store)) := by
  -- both have the same number of bytes, and so of rounds
  have hsame : (joined [y, nl]).length = (joined [x]).length := by
    simp [joined, hx, hy, hnl]
  obtain ⟨n, hn⟩ : ∃ n, (joined [x]).length = n + 1 := by
    refine Nat.exists_eq_add_one_of_ne_zero (Nat.ne_of_gt (List.length_pos_of_ne_nil ?_))
    exact List.append_ne_nil_of_left_ne_nil x.2 _
  have hlong : (lineOf q.word key).length < MAX_BUF := by
    rw [List.length_append] at hfit
    omega
  have hx' : x.1.length ≤ MAX_BUF - 1 := by
    rw [hx]
    exact Nat.le_sub_one_of_lt hfit
  have hy' : y.1.length ≤ MAX_BUF - 1 := by
    rw [hy]
    exact Nat.le_sub_one_of_lt hlong
  have hnl' : nl.1.length ≤ MAX_BUF - 1 := by
    rw [hnl]
    decide
  rw [do_process_arrive, do_process_arrive, hsame, hn]
  set w := arrive [] [] [] store with hw
  -- the line is answered with its newline and without it
  obtain ⟨bufx, hline⟩ := request_line send malloc
    (w := { w with input := ⟨[], .waiting⟩ }) hkey hlong (fun _ => 0)
  obtain ⟨bufy, hopen⟩ := request_line_open send malloc
    (w := { w with input := ⟨[nl], .waiting⟩ }) hkey.newline hkey.front hlong (fun _ => 0)
  rw [answer_input, ← hx] at hline
  rw [answer_input, ← hy] at hopen
  cases hanswer : answer send q key w with
  | none =>
    rw [hanswer] at hline hopen
    rw [loop_fault hx' hline, loop_fault hy' hopen]
  | some res =>
    obtain ⟨flow, w'⟩ := res
    rw [hanswer] at hline hopen
    by_cases hflow : flow = .again
    · -- the rounds after the answer: one waits, the other one gets the newline
      subst hflow
      rw [loop_again hx' hline, loop_again hy' hopen]
      obtain ⟨buf', hstop⟩ := request_newline send malloc
        (w := { w' with input := ⟨[], .waiting⟩ }) bufy
      rw [← hnl] at hstop
      obtain ⟨st, hend⟩ := loop_stop (n := n) (w := w') hnl' Flow.noConfusion hstop
      change effect (loop send malloc (n + 1) bufy { w' with input := ⟨[nl], .waiting⟩ })
        = effect (loop send malloc (n + 1) bufx { w' with input := ⟨[], .waiting⟩ })
      rw [hend, loop_idle]
      rfl
    -- both stop with the answer
    · obtain ⟨st, hend⟩ := loop_stop (n := n + 1) hx' hflow hline
      obtain ⟨st', hend'⟩ := loop_stop (n := n + 1) hy' hflow hopen
      rw [hend, hend']
      rfl

end Agree

/-! ### Deliveries that do not agree -/

/-- The first byte of a reply. -/
def firstByte (e : Option (List UInt8 × Store (Option (List UInt8)) SEXP)) : Option UInt8 :=
  e.bind fun x => x.1.head?

/-- A store with one entry of one byte. -/
def holding (key : CString) : Store (Option (List UInt8)) SEXP :=
  obj_add key none (some [0]) 1 Store.init

/-- Its entry, where it lies. -/
def held (key : CString) : Heap.Addr × Entry (Option (List UInt8)) SEXP :=
  ((Store.init : Store (Option (List UInt8)) SEXP).heap.top, ⟨1, some [0], none, key⟩)

theorem holding_rep (key : CString) : Rep (holding key) [held key] [] :=
  Rep.init.obj_add key none (some [0]) 1

theorem load_held (key : CString) :
    (holding key).heap.load (held key).1 = some ⟨(held key).2, none⟩ :=
  Heap.load_alloc_self _ _

theorem find?_held (key : CString) : [held key].find? (hasKey key) = some (held key) :=
  List.find?_cons_of_pos (by simp [hasKey, held])

theorem find?_held_of_ne {key part : CString} (h : part ≠ key) :
    [held key].find? (hasKey part) = none := by
  rw [List.find?_cons_of_neg (by simp [hasKey, held, Ne.symm h]), List.find?_nil]

/-- A `malloc` without memory. -/
def noMemory : Malloc where
  alloc _ _ := none
  le_max _ _ _ h := absurd h (by simp)

section Differ

variable {send : SendFn} {malloc : Malloc} {w w' : World} {q : Query} {key part : CString}
  {x : Segment} {xs : List Segment} {n : ℕ} {buf buf' : Memory} {flow : Flow} {b : UInt8}

theorem head?_extends {as bs : List UInt8} (h : as <+: bs) (has : as.head? = some b) :
    bs.head? = some b := by
  obtain ⟨t, rfl⟩ := h
  rw [List.head?_append, has]
  rfl

theorem reply_ok (hsend : send.Succeeds) (w : World) (bs : List UInt8) :
    ∃ calls, reply send w bs = (.again, { w with conn := ⟨calls, w.conn.out ++ bs⟩ }) := by
  obtain ⟨calls, hcalls⟩ := sendAll_ok hsend (show 0 < MAX_SEND by decide) w.conn bs
  refine ⟨calls, ?_⟩
  simp only [reply, send_buf, hcalls]
  rfl

/-- An entry with bytes is answered with their number and the bytes. -/
theorem get_raw (hsend : send.Succeeds) {a : Heap.Addr} {bs : List UInt8}
    {cell : Heap.Cell (Entry (Option (List UInt8)) SEXP)}
    (hget : obj_get key false w.store = some (some a, w.store))
    (hload : w.store.heap.load a = some cell) (hobj : cell.val.obj = some bs)
    (hlen : bs.length = cell.val.len) :
    ∃ calls, get send false key w = some (.again, { w with
      conn := ⟨calls, w.conn.out ++ (ascii "OK " ++ decimal bs.length ++ [10]) ++ bs⟩ }) := by
  -- two sends, the reply line and the object
  obtain ⟨calls, hcalls⟩ := sendAll_ok hsend (show 0 < MAX_SEND by decide) w.conn
    (ascii "OK " ++ decimal bs.length ++ [10])
  obtain ⟨calls', hreply⟩ := reply_ok hsend
    { w with conn := ⟨calls, w.conn.out ++ (ascii "OK " ++ decimal bs.length ++ [10])⟩ } bs
  refine ⟨calls', ?_⟩
  simp only [get, hget, Option.bind_eq_bind, Option.bind_some, Bool.false_eq_true, if_false, hload,
    hobj, ← hlen, send_buf, hcalls, Nat.lt_irrefl, List.take_length]
  exact congrArg some hreply

/-- A key that is held is answered with an `OK`. -/
theorem answer_held (hsend : send.Succeeds) (hstore : w.store = holding key)
    (hout : w.conn.out = []) :
    ∃ w', answer send q key w = some (.again, w') ∧ w'.input = w.input ∧
      w'.conn.out.head? = some 79 := by
  have hrep := holding_rep key
  rw [← hstore] at hrep
  have hfind := hrep.obj_get_find key
  rw [find?_held] at hfind
  cases q with
  | get =>
    have hload : w.store.heap.load (held key).1 = some ⟨(held key).2, none⟩ := by
      rw [hstore]
      exact load_held key
    obtain ⟨calls, hanswer⟩ := get_raw hsend hfind hload rfl rfl
    refine ⟨_, hanswer, rfl, ?_⟩
    rw [hout]
    rfl
  | has =>
    obtain ⟨calls, hreply⟩ := reply_ok hsend w OK
    refine ⟨{ w with conn := ⟨calls, w.conn.out ++ OK⟩ }, ?_, rfl, by rw [hout]; rfl⟩
    simp only [answer, get, hfind]
    exact congrArg some hreply
  | del =>
    obtain ⟨store', hremove, -⟩ := hrep.obj_get_remove key
    rw [find?_held] at hremove
    obtain ⟨calls, hreply⟩ := reply_ok hsend { w with store := store' } OK
    refine ⟨{ w with store := store', conn := ⟨calls, w.conn.out ++ OK⟩ }, ?_, rfl,
      by rw [hout]; rfl⟩
    simp only [answer, del, hremove]
    exact congrArg some hreply

/-- Another key is not found. -/
theorem answer_missing (hsend : send.Succeeds) (hstore : w.store = holding key) (hpart : part ≠ key)
    (hout : w.conn.out = []) :
    ∃ w', answer send q part w = some (.again, w') ∧ w'.conn.out.head? = some 78 := by
  have hrep := holding_rep key
  rw [← hstore] at hrep
  have hfind := hrep.obj_get_find part
  obtain ⟨store', hremove, -⟩ := hrep.obj_get_remove part
  rw [find?_held_of_ne hpart] at hfind hremove
  have hget : ∀ has, get send has part w = some (reply send w NF) := by
    intro has
    simp only [get, hfind]
    rfl
  have hNF : ∀ w : World, w.conn.out = [] → ∃ w', reply send w NF = (.again, w') ∧
      w'.conn.out.head? = some 78 := by
    intro w hw
    obtain ⟨calls, hreply⟩ := reply_ok hsend w NF
    exact ⟨_, hreply, by rw [hw]; rfl⟩
  cases q with
  | get =>
    obtain ⟨w', hreply, hhead⟩ := hNF w hout
    exact ⟨w', (hget false).trans (congrArg some hreply), hhead⟩
  | has =>
    obtain ⟨w', hreply, hhead⟩ := hNF w hout
    exact ⟨w', (hget true).trans (congrArg some hreply), hhead⟩
  | del =>
    obtain ⟨w', hreply, hhead⟩ := hNF { w with store := store' } hout
    refine ⟨w', ?_, hhead⟩
    simp only [answer, del, hremove]
    exact congrArg some hreply

/-- A piece that ends in a command has no reply. -/
theorem firstByte_capitals {c : CString} (hx : x.1 = c.bytes)
    (hc : ∀ b ∈ c.bytes, isUpper b = true) (hfit : x.1.length ≤ MAX_BUF - 1)
    (hout : w.conn.out = []) :
    firstByte (effect (loop send malloc (n + 1) buf { w with input := ⟨x :: xs, .waiting⟩ }))
      = none := by
  have hlen : c.length < MAX_BUF := by
    have : c.bytes.length ≤ MAX_BUF - 1 := hx ▸ hfit
    exact Nat.lt_of_le_of_lt this (by decide)
  obtain ⟨buf', hstop⟩ := request_capitals send malloc
    (w := { w with input := ⟨xs, .waiting⟩ }) hc hlen buf
  rw [← hx] at hstop
  obtain ⟨st, hend⟩ := loop_stop (n := n) hfit Flow.noConfusion hstop
  rw [hend]
  show w.conn.out.head? = none
  rw [hout]
  rfl

/-- The first round decides how the reply begins. -/
theorem firstByte_of_request (hfit : x.1.length ≤ MAX_BUF - 1)
    (h : request send malloc buf x.1 { w with input := ⟨xs, .waiting⟩ } = some (buf', flow, w'))
    (hhead : w'.conn.out.head? = some b) {c : UInt8} (hc : c ≠ b) :
    firstByte (effect (loop send malloc (n + 1) buf { w with input := ⟨x :: xs, .waiting⟩ }))
      ≠ some c := by
  intro hfirst
  cases hloop : loop send malloc (n + 1) buf { w with input := ⟨x :: xs, .waiting⟩ } with
  | none =>
    rw [hloop] at hfirst
    exact absurd hfirst (by simp [effect, firstByte])
  | some r =>
    obtain ⟨st, w''⟩ := r
    have hext : w'.conn.out <+: w''.conn.out := by
      by_cases hflow : flow = .again
      · subst hflow
        rw [loop_again hfit h] at hloop
        exact loop_extends hloop
      · obtain ⟨st', hend⟩ := loop_stop (n := n) hfit hflow h
        rw [hend] at hloop
        obtain ⟨-, rfl⟩ := Prod.mk.inj (Option.some.inj hloop)
        exact List.prefix_refl _
    rw [hloop] at hfirst
    have hsome : w''.conn.out.head? = some c := hfirst
    rw [head?_extends hext hhead] at hsome
    exact hc (Option.some.inj hsome).symm

/-- In a delivery in one piece it also ends there. -/
theorem firstByte_one (hfit : x.1.length ≤ MAX_BUF - 1)
    (h : request send malloc buf x.1 { w with input := ⟨[], .waiting⟩ } = some (buf', flow, w'))
    (hinput : w'.input = ⟨[], .waiting⟩) (hhead : w'.conn.out.head? = some b) :
    firstByte (effect (loop send malloc (n + 1 + 1) buf { w with input := ⟨[x], .waiting⟩ }))
      = some b := by
  by_cases hflow : flow = .again
  · subst hflow
    have hself : w' = { w' with input := ⟨[], .waiting⟩ } := by rw [← hinput]
    rw [loop_again hfit h, hself, loop_idle]
    exact hhead
  · obtain ⟨st, hend⟩ := loop_stop (n := n + 1) hfit hflow h
    rw [hend]
    exact hhead

variable (send malloc) in
/-- The command line of a `PUT` leads to its size line. -/
theorem request_put_line (hkey : Nameable key) {tail bs : List UInt8}
    (htail : tail ++ [0] = b :: bs)
    (hb : isEol b = false) (hfit : (lineOf (cstr PUT) key ++ 10 :: tail).length < MAX_BUF)
    (buf : Memory) :
    ∃ buf' d, At buf' d (tail ++ [0]) ∧ d + tail.length < MAX_BUF ∧
      (∀ n d', putSize buf' d = some (some (n, d')) →
        request send malloc buf (lineOf (cstr PUT) key ++ 10 :: tail) w = some (buf',
          if n > 0 then putPayload send malloc key n.toNat d'
            (lineOf (cstr PUT) key ++ 10 :: tail).length buf' w
          else reply send w UNSUPP)) ∧
      (putSize buf' d = some none →
        request send malloc buf (lineOf (cstr PUT) key ++ 10 :: tail) w
          = some (buf', refuse send w INV)) := by
  have hat : At (write buf 0 (lineOf (cstr PUT) key ++ 10 :: tail ++ [0])) 0
      (lineOf (cstr PUT) key ++ 10 :: (tail ++ [0])) := by
    rw [← List.cons_append, ← List.append_assoc]
    exact at_write _ _ _
  have hlen : (lineOf (cstr PUT) key ++ 10 :: tail).length
      = (cstr PUT).length + 1 + key.length + 1 + tail.length := by
    rw [List.length_append, length_lineOf, List.length_cons]
    omega
  have hupper : ∀ b ∈ (cstr PUT).bytes, isUpper b = true :=
    List.all_eq_true.mp (by decide : PUT.all isUpper = true)
  obtain ⟨buf', hline, hrest⟩ := commandLine_eq hat hupper hkey (by omega)
  -- the size line starts at once
  have hskip : skipWhile MAX_BUF isEol buf' ((cstr PUT).length + 1 + key.length + 1)
      = some ((cstr PUT).length + 1 + key.length + 1) := by
    have hfirst : At buf' ((cstr PUT).length + 1 + key.length + 1) ([] ++ [b]) := by
      rw [htail] at hrest
      exact at_cons.mpr ⟨(at_cons.mp hrest).1, at_nil _ _⟩
    exact skipWhile_eq hfirst (by simp) hb (by simp only [List.length_nil]; omega)
  have hlt : (cstr PUT).length + 1 + key.length
      < (lineOf (cstr PUT) key ++ 10 :: tail).length := by omega
  have hperform : perform send malloc ⟨some ((cstr PUT).length + 1 + key.length), cstr PUT, key⟩
        (lineOf (cstr PUT) key ++ 10 :: tail).length buf' w
      = put send malloc key (some ((cstr PUT).length + 1 + key.length))
        (lineOf (cstr PUT) key ++ 10 :: tail).length buf' w := rfl
  refine ⟨buf', _, hrest, by omega, ?_, ?_⟩
  · intro n d' hsize
    rw [request_perform hline, hperform]
    simp only [put, Option.bind_eq_bind, Option.bind_some, hlt, if_true, hskip, hsize]
    split <;> rfl
  · intro hsize
    rw [request_perform hline, hperform]
    simp only [put, Option.bind_eq_bind, Option.bind_some, hlt, if_true, hskip, hsize]
    rfl

theorem isEol_front {size : List UInt8} (hsize : IsSize size) :
    ∃ b bs, size = b :: bs ∧ isEol b = false := by
  cases hsize with
  | inl hquestion => exact ⟨63, [], hquestion, rfl⟩
  | inr hdigits =>
    obtain ⟨b, bs, rfl⟩ := List.exists_cons_of_ne_nil hdigits.1
    exact ⟨b, bs, rfl, isEol_of_isDigit (hdigits.2 b (List.mem_cons_self ..))⟩

/-- Both lines of a `PUT` lead up to its payload, and without memory no further. -/
theorem request_put_lines (hsend : send.Succeeds) (hkey : Nameable key) {size : List UInt8}
    (hsize : IsSize size) (hfit : (lineOf (cstr PUT) key ++ 10 :: (size ++ [10])).length < MAX_BUF)
    (hout : w.conn.out = []) (buf : Memory) :
    ∃ buf' flow w' b, request send noMemory buf (lineOf (cstr PUT) key ++ 10 :: (size ++ [10])) w
        = some (buf', flow, w') ∧
      w'.input = w.input ∧ w'.conn.out.head? = some b ∧ b ≠ 73 := by
  obtain ⟨b, bs, hbs, hb⟩ := isEol_front hsize
  have htail : size ++ [10] ++ [0] = b :: (bs ++ [10] ++ [0]) := by rw [hbs]; rfl
  obtain ⟨buf', d, hat, hd, hsome, -⟩ :=
    request_put_line send noMemory (w := w) hkey htail hb hfit buf
  rw [List.append_assoc] at hat
  obtain ⟨n, d', hput⟩ := putSize_closed hat hsize (by
    rw [List.length_append] at hd
    omega)
  have hrequest := hsome n d' hput
  by_cases hn : n > 0
  · obtain ⟨calls, hcalls⟩ := sendAll_ok hsend (show 0 < MAX_SEND by decide) w.conn ERR
    rw [if_pos hn] at hrequest
    refine ⟨buf', .leave, { w with mallocs := w.mallocs + 1, conn := ⟨calls, w.conn.out ++ ERR⟩ },
      69, ?_, rfl, by rw [hout]; rfl, by decide⟩
    rw [hrequest]
    simp only [putPayload, noMemory, refuse, send_buf, hcalls]
  · obtain ⟨calls, hreply⟩ := reply_ok hsend w UNSUPP
    rw [if_neg hn, hreply] at hrequest
    exact ⟨buf', .again, _, 85, hrequest, rfl, by rw [hout]; rfl, by decide⟩

variable (send malloc) in
/-- A `PUT` whose size line ends early is refused. -/
theorem request_put_open (hsend : send.Succeeds) (hkey : Nameable key) {size tail : List UInt8}
    (hsize : IsSize size) (hpre : tail <+: size)
    (hfit : (lineOf (cstr PUT) key ++ 10 :: tail).length < MAX_BUF) (hout : w.conn.out = [])
    (buf : Memory) :
    ∃ buf' w', request send malloc buf (lineOf (cstr PUT) key ++ 10 :: tail) w
        = some (buf', .leave, w') ∧ w'.conn.out.head? = some 73 := by
  obtain ⟨b, bs, htail, hb⟩ : ∃ b bs, tail ++ [0] = b :: bs ∧ isEol b = false := by
    cases tail with
    | nil => exact ⟨0, [], rfl, rfl⟩
    | cons c cs =>
      obtain ⟨b, bs, rfl, hb⟩ := isEol_front hsize
      obtain ⟨rfl, -⟩ := List.cons_prefix_cons.mp hpre
      exact ⟨c, cs ++ [0], rfl, hb⟩
  obtain ⟨buf', d, hat, hd, -, hnone⟩ :=
    request_put_line send malloc (w := w) hkey htail hb hfit buf
  obtain ⟨calls, hcalls⟩ := sendAll_ok hsend (show 0 < MAX_SEND by decide) w.conn INV
  refine ⟨buf', { w with conn := ⟨calls, w.conn.out ++ INV⟩ }, ?_, by rw [hout]; rfl⟩
  rw [hnone (putSize_open hat hsize hpre hd)]
  simp only [refuse, send_buf, hcalls]

variable (send malloc) in
/-- A `PUT` without its newline follows a null pointer. -/
theorem request_put_fault (hten : (10 : UInt8) ∉ part.bytes)
    (hfront : ∀ b ∈ part.bytes.head?, isBlank b = false)
    (hfit : (lineOf (cstr PUT) part).length < MAX_BUF) (buf : Memory) :
    request send malloc buf (lineOf (cstr PUT) part) w = none := by
  have hupper : ∀ b ∈ (cstr PUT).bytes, isUpper b = true :=
    List.all_eq_true.mp (by decide : PUT.all isUpper = true)
  rw [length_lineOf] at hfit
  obtain ⟨buf', hline⟩ := commandLine_open (at_write buf 0 (lineOf (cstr PUT) part ++ [0])) hupper
    hten hfront hfit
  rw [request_perform hline]
  rfl

end Differ

section Iff

variable {r : Request} {p q : List Segment}

theorem joined_cons (x : Segment) (xs : List Segment) : joined (x :: xs) = x.1 ++ joined xs := rfl

theorem joined_one (r : Request) : joined r.one = r.bytes := List.append_nil _

/-- The pieces of a request, the first of which starts it. -/
theorem exists_first (hp : joined p = r.bytes) : ∃ x xs, p = x :: xs ∧ x.1 <+: r.bytes := by
  cases p with
  | nil => exact absurd hp.symm r.bytes_ne_nil
  | cons x xs => exact ⟨x, xs, rfl, joined xs, by rw [← hp, joined_cons]⟩

/-- The reply to the request in one piece, by its first byte. -/
theorem firstByte_whole {send : SendFn} {malloc : Malloc} {buf' : Memory} {flow : Flow}
    {w' : World} {b : UInt8} {store : Store (Option (List UInt8)) SEXP}
    (hfit : r.bytes.length < MAX_BUF)
    (h : request send malloc (fun _ => 0) r.bytes
      { arrive [] [] [] store with input := ⟨[], .waiting⟩ } = some (buf', flow, w'))
    (hinput : w'.input = ⟨[], .waiting⟩) (hhead : w'.conn.out.head? = some b) :
    firstByte (effect (do_process send malloc (arrive r.one [] [] store))) = some b := by
  obtain ⟨n, hn⟩ : ∃ n, (joined r.one).length = n + 1 := by
    rw [joined_one]
    exact Nat.exists_eq_add_one_of_ne_zero
      (Nat.ne_of_gt (List.length_pos_of_ne_nil r.bytes_ne_nil))
  rw [do_process_arrive, hn]
  exact firstByte_one (x := ⟨r.bytes, r.bytes_ne_nil⟩) (Nat.le_sub_one_of_lt hfit) h hinput hhead

/-- **A line that is cut before the end of its key** is answered differently where the
key is held: not at all, or for the part of the key that there is. -/
theorem reaches_of_line_agree {q : Query} {key : Key} (hp : joined p = (Request.line q key).bytes)
    (hfit : (Request.line q key).bytes.length < MAX_BUF)
    (hagree : Agree (.line q key) p (Request.line q key).one) : Reaches (.line q key) p := by
  obtain ⟨x, xs, rfl, hx⟩ := exists_first hp
  by_contra hcut
  have hboth := congrArg firstByte (hagree SendFn.whole .plenty [.add key.1 none (some [0]) 1]
    (holding key.1) [] [] rfl ⟨rfl, rfl⟩)
  have hlong : (lineOf q.word key.1).length < MAX_BUF := by
    rw [Request.bytes, List.length_append] at hfit
    omega
  have hx' : x.1.length ≤ MAX_BUF - 1 :=
    Nat.le_trans hx.length_le (Nat.le_sub_one_of_lt hfit)
  -- in one piece the key is found
  have hwhole : firstByte (effect (do_process SendFn.whole .plenty
      (arrive (Request.line q key).one [] [] (holding key.1)))) = some 79 := by
    obtain ⟨buf', hline⟩ := request_line SendFn.whole .plenty
      (w := { arrive [] [] [] (holding key.1) with input := ⟨[], .waiting⟩ }) key.2 hlong
      (fun _ => 0)
    obtain ⟨w', hanswer, hinput, hhead⟩ := answer_held (q := q)
      (w := { arrive [] [] [] (holding key.1) with input := ⟨[], .waiting⟩ })
      SendFn.whole_succeeds rfl rfl
    rw [hanswer] at hline
    exact firstByte_whole hfit hline hinput hhead
  rw [hwhole, do_process_arrive] at hboth
  obtain ⟨c, hxc, hc⟩ | ⟨part, hxp, hpart⟩ | ⟨y, hxy, -⟩ := cut_line (word_upper q) hx
  · rw [firstByte_capitals hxc hc hx' rfl] at hboth
    exact absurd hboth (Option.some_ne_none _).symm
  · have hne : part ≠ key.1 := by
      rintro rfl
      exact hcut ⟨x, xs, rfl, by rw [hxp]; exact List.prefix_refl _⟩
    have hten : (10 : UInt8) ∉ part.bytes := fun hmem => key.2.newline (hpart.subset hmem)
    obtain ⟨buf', hline⟩ := request_line_open SendFn.whole .plenty (q := q)
      (w := { arrive [] [] [] (holding key.1) with input := ⟨xs, .waiting⟩ }) hten
      (front_of_part key.2 hpart) (by rw [← hxp]; exact Nat.lt_of_le_of_lt hx' (by decide))
      (fun _ => 0)
    obtain ⟨w', hanswer, hhead⟩ := answer_missing (q := q)
      (w := { arrive [] [] [] (holding key.1) with input := ⟨xs, .waiting⟩ })
      SendFn.whole_succeeds rfl hne rfl
    rw [hanswer, ← hxp] at hline
    exact firstByte_of_request hx' hline hhead (by decide) hboth
  · exact hcut ⟨x, xs, rfl, by rw [hxy]; exact List.prefix_append _ _⟩

/-- **A `PUT` that is cut inside its lines** fails where the request in one piece gets as
far as asking for memory: the connection ends, a null pointer is followed, or the size is
refused. -/
theorem reaches_of_put_agree {key : Key} {size : Size}
    (hp : joined p = (Request.put key size).bytes)
    (hfit : (Request.put key size).bytes.length < MAX_BUF)
    (hagree : Agree (.put key size) p (Request.put key size).one) :
    Reaches (.put key size) p := by
  obtain ⟨x, xs, rfl, hx⟩ := exists_first hp
  by_contra hcut
  -- for an empty store and without memory the first byte of the answer tells them apart
  have hboth := congrArg firstByte (hagree SendFn.whole noMemory [] Store.init [] [] rfl trivial)
  have hx' : x.1.length ≤ MAX_BUF - 1 :=
    Nat.le_trans hx.length_le (Nat.le_sub_one_of_lt hfit)
  have hupper : ∀ b ∈ (cstr PUT).bytes, isUpper b = true :=
    List.all_eq_true.mp (by decide : PUT.all isUpper = true)
  obtain ⟨buf', flow, w', b, hrequest, hinput, hhead, hb⟩ := request_put_lines
    (w := { arrive [] [] [] Store.init with input := ⟨[], .waiting⟩ }) SendFn.whole_succeeds key.2
    size.2 hfit rfl (fun _ => 0)
  rw [firstByte_whole (r := .put key size) hfit hrequest hinput hhead, do_process_arrive] at hboth
  obtain ⟨c, hxc, hc⟩ | ⟨part, hxp, hpart⟩ | ⟨y, hxy, hy⟩ := cut_line hupper hx
  -- the first segment ends in the command: no answer at all
  · rw [firstByte_capitals hxc hc hx' rfl] at hboth
    exact absurd hboth (Option.some_ne_none _).symm
  -- it ends in the key: a null pointer is followed
  · have hten : (10 : UInt8) ∉ part.bytes := fun hmem => key.2.newline (hpart.subset hmem)
    have hfault := request_put_fault SendFn.whole noMemory
      (w := { arrive [] [] [] Store.init with input := ⟨xs, .waiting⟩ }) hten
      (front_of_part key.2 hpart) (by rw [← hxp]; exact Nat.lt_of_le_of_lt hx' (by decide))
      (fun _ => 0)
    rw [← hxp] at hfault
    rw [loop_fault hx' hfault] at hboth
    exact absurd hboth (Option.some_ne_none _).symm
  · -- the size line, but for its newline
    have hpre : y <+: size.1 := by
      obtain hpre | hall := List.prefix_concat_iff.mp hy |>.symm
      · exact hpre
      · refine absurd ?_ hcut
        exact ⟨x, xs, rfl, by rw [hxy, hall]; exact List.prefix_refl _⟩
    obtain ⟨buf'', w'', hopen, hhead'⟩ := request_put_open SendFn.whole noMemory
      (w := { arrive [] [] [] Store.init with input := ⟨xs, .waiting⟩ })
      SendFn.whole_succeeds key.2 size.2 hpre
      (by rw [← hxy]; exact Nat.lt_of_le_of_lt hx' (by decide)) rfl (fun _ => 0)
    rw [← hxy] at hopen
    exact firstByte_of_request hx' hopen hhead' hb hboth

/-- A delivery that takes in what is needed agrees with the one in one piece. -/
theorem agree_of_reaches (hp : joined p = r.bytes) (hfit : r.bytes.length < MAX_BUF)
    (hreach : Reaches r p) : Agree r p r.one := by
  obtain ⟨x, xs, rfl, hx⟩ := hreach
  rw [joined_cons] at hp
  -- nothing more to come, and the first piece is the request
  have hwhole : x.1 = r.bytes → Agree r (x :: xs) r.one := by
    intro hx
    have hnil : joined xs = [] := by
      rw [hx] at hp
      exact List.self_eq_append_right.mp hp.symm
    have hxs : xs = [] := by
      cases xs with
      | nil => rfl
      | cons y ys => exact absurd (List.append_eq_nil_iff.mp hnil).1 y.2
    have hsame : x :: xs = r.one := by
      rw [hxs]
      exact congrArg (fun s : Segment => [s]) (Subtype.ext hx)
    rw [hsame]
    exact fun _ _ _ _ _ _ _ _ => rfl
  cases r with
  | put key size =>
    have hback : x.1 <+: (Request.put key size).needed := ⟨joined xs, hp⟩
    exact hwhole (hx.eq_of_length_le hback.length_le).symm
  | line q key =>
    obtain ⟨t, ht⟩ := hx
    have htail : t ++ joined xs = [10] := by
      have hshape : (Request.line q key).needed ++ (t ++ joined xs)
          = (Request.line q key).needed ++ [10] := by
        rw [← List.append_assoc, ht]
        exact hp
      exact List.append_cancel_left hshape
    cases t with
    | cons c cs =>
      -- the newline is in the first piece
      refine hwhole ?_
      obtain ⟨rfl, hcs⟩ := List.cons.inj htail
      obtain rfl := (List.append_eq_nil_iff.mp hcs).1
      exact ht.symm
    | nil =>
      have hx : x.1 = lineOf q.word key.1 := by
        rw [← ht, List.append_nil]
        rfl
      obtain ⟨nl, rfl, hnl⟩ : ∃ nl : Segment, xs = [nl] ∧ nl.1 = [10] := by
        cases xs with
        | nil => exact absurd htail (by simp [joined])
        | cons nl ys =>
          rw [List.nil_append, joined_cons] at htail
          obtain ⟨hnil, -⟩ | ⟨hnl, hys⟩ := List.append_eq_singleton_iff.mp htail
          · exact absurd hnil nl.2
          · cases ys with
            | nil => exact ⟨nl, rfl, hnl⟩
            | cons y ys => exact absurd (List.append_eq_nil_iff.mp hys).1 y.2
      rintro send malloc ops store first rest - ⟨rfl, rfl⟩
      exact line_agrees key.2 hfit rfl hx hnl store

/-- A delivery agrees with the one in one piece exactly if its first piece takes in what
is needed. -/
theorem agree_one_iff (hp : joined p = r.bytes) (hfit : r.bytes.length < MAX_BUF) :
    Agree r p r.one ↔ Reaches r p := by
  constructor
  · intro h
    cases r with
    | line q key => exact reaches_of_line_agree hp hfit h
    | put key size => exact reaches_of_put_agree hp hfit h
  · exact agree_of_reaches hp hfit

end Iff

/-- **Requests do not depend on segmentation exactly as far as the first piece takes in
what is needed**: a line up to the end of its key, both lines of a `PUT`. -/
theorem segmentation_agrees_iff {r : Request} {p q : List Segment} (hp : joined p = r.bytes)
    (hq : joined q = r.bytes) (hfit : r.bytes.length < MAX_BUF) (hone : Reaches r p ∨ Reaches r q) :
    Agree r p q ↔ Reaches r p ∧ Reaches r q := by
  have hp' := agree_one_iff hp hfit
  have hq' := agree_one_iff hq hfit
  constructor
  · intro h
    cases hone with
    | inl hreach => exact ⟨hreach, hq'.mp (h.symm.trans (hp'.mpr hreach))⟩
    | inr hreach => exact ⟨hp'.mp (h.trans (hq'.mpr hreach)), hreach⟩
  · rintro ⟨hreach, hreach'⟩
    exact (hp'.mpr hreach).trans (hq'.mpr hreach').symm

/-- `GET k`. -/
def getK : Request := .line .get ⟨cstr [107], Plain.nameable (by decide)⟩

/-- It comes in with its newline in a piece of its own. -/
def newlineLate : List Segment :=
  [⟨[71, 69, 84, 32, 107], List.cons_ne_nil _ _⟩, ⟨[10], List.cons_ne_nil _ _⟩]

/-- It comes in with its first two letters in a piece of their own. -/
def commandCut : List Segment :=
  [⟨[71, 69], List.cons_ne_nil _ _⟩, ⟨[84, 32, 107, 10], List.cons_ne_nil _ _⟩]

/-- A late newline makes no difference. -/
theorem segmentation_agrees_newline :
    Agree getK newlineLate getK.one ↔ Reaches getK newlineLate ∧ Reaches getK getK.one :=
  segmentation_agrees_iff rfl (joined_one getK) (by decide)
    (Or.inr ⟨_, _, rfl, List.prefix_append _ _⟩)

/-- A cut in the command does: where the key is held, one delivery is answered with the
object and the other not at all. -/
theorem command_cut_differs : ¬ ∀ r p q, joined p = Request.bytes r → joined q = r.bytes →
    r.bytes.length < MAX_BUF → Agree r p q := by
  intro h
  have hagree := h getK commandCut getK.one rfl (joined_one getK) (by decide)
  obtain ⟨x, xs, hcut, hneeded⟩ := (agree_one_iff (r := getK) rfl (by decide)).mp hagree
  obtain ⟨rfl, -⟩ := List.cons.inj hcut
  exact absurd hneeded.length_le (by decide)

end Tcp
end Osrv
