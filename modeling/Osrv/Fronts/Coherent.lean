import Osrv.Client.Agree
import Osrv.Fronts.Clients
import Osrv.Fronts.Framing
import Osrv.Obj.LocalReads
import Osrv.Obj.Removal
import Osrv.Tcp.Put

/-!
# What one front end stores, the others serve

Bytes are put into the store by R, by a `PUT` over TCP or by a `PUT` over HTTP. From
then on a lookup of their key finds their entry (`Shows`), until an operation adds to
the key or removes it: nothing else that the front ends do, in any order, takes the
entry out of sight or changes its bytes (`Shows.run`). Whichever front end put them and
whichever is asked, it is these bytes that come back (`bytes_served_alike`).

What R itself keeps of an entry is another matter. A call of `C_get` that decodes the
bytes leaves the value in the entry, and later calls return it whatever they ask for.
-/

namespace Osrv
namespace Fronts

open Bytes Net Obj Sfs Http

/-! ### The entry of a key -/

/-- A lookup finds an entry with the property. -/
def Shows (P : ObjEntry → Prop) (key : CString) (s : Objects) : Prop :=
  ∃ xs ys x, Rep s xs ys ∧ xs.find? (hasKey key) = some x ∧ P x.2

section Shows

variable {P : ObjEntry → Prop} {key key' : CString} {s s' : Objects}

theorem Shows.looked (h : Shows P key s) : ∃ a cell, obj_get key false s = some (some a, s) ∧
    s.heap.load a = some cell ∧ P cell.val := by
  obtain ⟨xs, ys, x, hrep, hfind, hP⟩ := h
  have hget := hrep.obj_get_find key
  rw [hfind] at hget
  obtain ⟨next, hload⟩ := hrep.root.cells_of_mem (List.mem_of_find?_eq_some hfind)
  exact ⟨x.1, ⟨x.2, next⟩, hget, hload, hP⟩

/-- The entry that was added last is the one that is found. -/
theorem shows_obj_add {xs ys : Entries (Option (List UInt8)) SEXP} (hrep : Rep s xs ys)
    {len : ℕ} {data : Option (List UInt8)} {sWhat : Option SEXP}
    (hP : P ⟨len, data, sWhat, key⟩) : Shows P key (obj_add key sWhat data len s) :=
  ⟨_, ys, _, hrep.obj_add key sWhat data len, List.find?_cons_of_pos (by simp [hasKey]), hP⟩

theorem Shows.obj_add (h : Shows P key s) (hne : key' ≠ key) (sWhat : Option SEXP)
    (data : Option (List UInt8)) (len : ℕ) : Shows P key (obj_add key' sWhat data len s) := by
  obtain ⟨xs, ys, x, hrep, hfind, hP⟩ := h
  refine ⟨_, ys, x, hrep.obj_add key' sWhat data len, ?_, hP⟩
  rw [List.find?_cons_of_neg (by simpa [hasKey] using hne)]
  exact hfind

theorem Shows.obj_get (h : Shows P key s) {rm : Bool} {o : Heap.Ptr}
    (hne : rm = true → key' ≠ key) (hget : obj_get key' rm s = some (o, s')) :
    Shows P key s' := by
  obtain ⟨xs, ys, x, hrep, hfind, hP⟩ := h
  cases rm with
  | false =>
    rw [hrep.obj_get_find] at hget
    obtain rfl := (Prod.mk.inj (Option.some.inj hget)).2
    exact ⟨xs, ys, x, hrep, hfind, hP⟩
  | true =>
    obtain ⟨s₁, hremove, hrep', -⟩ := hrep.obj_get_remove key'
    rw [hremove] at hget
    obtain rfl := (Prod.mk.inj (Option.some.inj hget)).2
    exact ⟨_, _, x, hrep', (find_eraseP_of_ne (hne rfl).symm xs).trans hfind, hP⟩

theorem Shows.obj_gc (h : Shows P key s) (hgc : obj_gc s = some s') : Shows P key s' := by
  obtain ⟨xs, ys, x, hrep, hfind, hP⟩ := h
  obtain ⟨s₁, hrun, hrep', -⟩ := hrep.obj_gc
  rw [hrun] at hgc
  obtain rfl := Option.some.inj hgc
  exact ⟨xs, [], x, hrep', hfind, hP⟩

/-- A value that is kept in an entry takes none out of sight. -/
theorem find?_kept {pre post : Entries (Option (List UInt8)) SEXP} {a : Heap.Addr} {e : ObjEntry}
    {x : Heap.Addr × ObjEntry} {v : SEXP}
    (hfind : (pre ++ (a, e) :: post).find? (hasKey key) = some x) (hP : P x.2)
    (hkept : e.key = key → P e → P { e with sWhat := some v }) :
    ∃ x', (pre ++ (a, { e with sWhat := some v }) :: post).find? (hasKey key) = some x' ∧
      P x'.2 := by
  rw [List.find?_append] at hfind ⊢
  cases hpre : pre.find? (hasKey key) with
  | some y =>
    rw [hpre] at hfind
    exact ⟨x, hfind, hP⟩
  | none =>
    rw [hpre, Option.none_or] at hfind
    rw [Option.none_or]
    by_cases hkey : e.key = key
    · rw [List.find?_cons_of_pos (by simpa [hasKey] using hkey)] at hfind
      obtain rfl := Option.some.inj hfind
      exact ⟨_, List.find?_cons_of_pos (by simpa [hasKey] using hkey), hkept hkey hP⟩
    · rw [List.find?_cons_of_neg (by simpa [hasKey] using hkey)] at hfind
      refine ⟨x, ?_, hP⟩
      rw [List.find?_cons_of_neg (by simpa [hasKey] using hkey)]
      exact hfind

/-- A call of `C_get` keeps a value in the entry that it finds, and removes no other. -/
theorem Shows.C_get (h : Shows P key s) {r : RSession} {use_sfs rm : Bool} {res : Option SEXP}
    (hne : rm = true → key' ≠ key)
    (hkept : key' = key → ∀ e v, P e → materialise r use_sfs e.len e.obj = some (some v) →
      P { e with sWhat := some v })
    (hget : C_get r key' use_sfs rm s = some (res, s')) : Shows P key s' := by
  simp only [Obj.C_get, Option.bind_eq_bind, Option.bind_eq_some_iff] at hget
  obtain ⟨⟨o, s₁⟩, hobj, hget⟩ := hget
  have h₁ := h.obj_get hne hobj
  cases o with
  | none =>
    obtain rfl := (Prod.mk.inj (Option.some.inj hget)).2
    exact h₁
  | some a =>
    obtain ⟨cell, hload, hget⟩ := Option.bind_eq_some_iff.mp hget
    split at hget
    · obtain rfl := (Prod.mk.inj (Option.some.inj hget)).2
      exact h₁
    · obtain ⟨value, hvalue, hget⟩ := Option.bind_eq_some_iff.mp hget
      split at hget
      · obtain rfl := (Prod.mk.inj (Option.some.inj hget)).2
        exact h₁
      · next v =>
        split at hget
        · obtain rfl := (Prod.mk.inj (Option.some.inj hget)).2
          exact h₁
        · next hrm =>
          -- the entry stays in the store and gets the value
          obtain ⟨s₂, hkeep, hget⟩ := Option.bind_eq_some_iff.mp hget
          obtain rfl := (Prod.mk.inj (Option.some.inj hget)).2
          rw [Bool.not_eq_true] at hrm
          subst hrm
          obtain ⟨xs, ys, x, hrep, hfind, hP⟩ := h
          rw [hrep.obj_get_find] at hobj
          obtain ⟨ha, rfl⟩ := Prod.mk.inj (Option.some.inj hobj)
          obtain ⟨pre, e, post, next, rfl, hkey, hcell⟩ := hrep.exists_found ha
          obtain rfl : cell = ⟨e, next⟩ := Option.some.inj (hload.symm.trans hcell)
          obtain ⟨s₃, hrun, hrep'⟩ := hrep.keep hcell v
          rw [hrun] at hkeep
          obtain rfl := Option.some.inj hkeep
          obtain ⟨x', hfind', hP'⟩ := find?_kept hfind hP
            fun hk he => hkept (hkey.symm.trans hk) e v he hvalue
          exact ⟨_, ys, x', hrep', hfind', hP'⟩

end Shows

/-! ### Operations that leave a key alone -/

/-- What the handler does to the store. -/
inductive HttpEffect (req : HttpRequest) (s : Objects) : Objects → Prop
  | none : HttpEffect req s s
  | put {path : CString} (hmethod : req.method = some .PUT) (hpath : req.path = some path)
      (hunder : under dataPrefix path = true) :
      HttpEffect req s
        (obj_add (keyOf path) none (bodyBytes req) (toObjLen req.content_length) s)
  | got {path : CString} {rm : Bool} {o : Heap.Ptr} {s' : Objects} (hpath : req.path = some path)
      (hunder : under dataPrefix path = true) (hmethod : rm = true → req.method = some .DELETE)
      (hget : obj_get (keyOf path) rm s = some (o, s')) : HttpEffect req s s'

section Handler

variable {send : SendFn} {malloc : Malloc} {garbage : ℕ → Option Garbage}

theorem sendObject_store (obj : Option (List UInt8)) (len : ℕ) (w : Server) :
    (sendObject send obj len w).store = w.store := by
  unfold sendObject
  split
  · rfl
  · split
    · rfl
    · split <;> rfl

/-- A `GET` or `HEAD` looks up, if anything. -/
theorem getData_store (get : Bool) (attr : Attr) (key : CString) (w : Server) :
    (getData send garbage get attr key w).store = w.store ∨
      ∃ o, obj_get key false w.store
        = some (o, (getData send garbage get attr key w).store) := by
  rw [getData]
  split
  · exact Or.inl rfl
  · next store hget => exact Or.inr ⟨none, hget⟩
  · next a store hget =>
    refine Or.inr ⟨some a, hget.trans ?_⟩
    split
    · rfl
    · split
      · rfl
      · dsimp only
        split
        · rw [sendObject_store]
          rfl
        · rfl

theorem deleteData_store (attr : Attr) (key : CString) (w : Server) :
    (deleteData send attr key w).store = w.store ∨
      ∃ o, obj_get key true w.store = some (o, (deleteData send attr key w).store) := by
  rw [deleteData]
  split
  · exact Or.inl rfl
  · next o store hget =>
    refine Or.inr ⟨o, hget.trans ?_⟩
    dsimp only
    split <;> rfl

/-- **The handler** makes one call of `obj.c` at most, with the key in the path. -/
theorem http_process_effect (req : HttpRequest) (w : Server) :
    HttpEffect req w.store (http_process send malloc garbage req w).2.2.store := by
  rw [http_process]
  split
  · exact .none
  · next path hpath =>
    have hget : ∀ get, HttpEffect req w.store
        (getData send garbage get req.attr (keyOf path) w).store ∨
          ¬ under dataPrefix path = true := by
      intro get
      by_cases hunder : under dataPrefix path = true
      · obtain hsame | ⟨o, hlooked⟩ := getData_store get req.attr (keyOf path) w
        · exact Or.inl (hsame ▸ .none)
        · exact Or.inl (.got hpath hunder (fun h => Bool.noConfusion h) hlooked)
      · exact Or.inr hunder
    split
    · next hunder =>
      dsimp only [dataRequest]
      split
      · exact (hget true).resolve_right (not_not.mpr hunder)
      · exact (hget false).resolve_right (not_not.mpr hunder)
      · next hmethod =>
        obtain hsame | ⟨o, hremoved⟩ := deleteData_store req.attr (keyOf path) w
        · rw [hsame]
          exact .none
        · exact .got hpath hunder (fun _ => hmethod) hremoved
      · next hmethod => exact .put hmethod hpath hunder
      · rw [store_otherRequest]
        exact .none
    · rw [store_otherRequest]
      exact .none

end Handler

/-- **The operation leaves the key alone**: it adds nothing under it and removes nothing. -/
def Leaves (key : CString) : Op → Prop
  | .put key' _ _ => key' ≠ key
  | .get _ key' _ rm => rm = true → key' ≠ key
  | .clean => True
  | .tcp t => ∀ buf c, Tcp.commandLine (write t.buf 0 (t.bs ++ [0])) = some (buf, some c) →
      c.cmd.bytes = Tcp.DEL ∨ c.cmd.bytes = Tcp.PUT → c.arg ≠ key
  | .http c => c.req.method = some .DELETE ∨ c.req.method = some .PUT → ∀ path,
      c.req.path = some path → under dataPrefix path = true → keyOf path ≠ key

/-- A value that the operation keeps does not take the property away. -/
def Spares (P : ObjEntry → Prop) (key : CString) : Op → Prop
  | .get r key' use_sfs _ => key' = key → ∀ e v, P e →
      materialise r use_sfs e.len e.obj = some (some v) → P { e with sWhat := some v }
  | _ => True

section Step

variable {P : ObjEntry → Prop} {key : CString} {s s' : Objects}

theorem keepsOn_shows (P : ObjEntry → Prop) (key : CString) (send : SendFn) :
    Tcp.KeepsOn send (fun key' rm => rm = true → key' ≠ key) (fun key' => key' ≠ key)
      fun w => Shows P key w.store where
  sent _ _ h := h
  stored _ _ h := h
  got _ _ _ _ _ hne h hget := h.obj_get hne hget
  added _ _ _ hne h := h.obj_add hne _ _ _
  input _ _ h := h
  mallocs _ _ h := h

/-- **A step** that leaves the key alone. -/
theorem Shows.step (h : Shows P key s) {op : Op} (hleaves : Leaves key op)
    (hspares : Spares P key op) (hstep : step s op = some s') : Shows P key s' := by
  cases op with
  | put key' sWhat use_sfs =>
    obtain rfl := Option.some.inj hstep
    rw [C_put]
    split
    · exact h.obj_add hleaves _ _ _
    · split
      · exact h
      · exact h.obj_add hleaves _ _ _
  | get r key' use_sfs rm =>
    obtain ⟨⟨res, s₁⟩, hget, rfl⟩ := Option.map_eq_some_iff.mp hstep
    exact h.C_get hleaves hspares hget
  | clean => exact h.obj_gc hstep
  | tcp t =>
    obtain ⟨⟨buf', flow, w'⟩, hrequest, rfl⟩ := Option.map_eq_some_iff.mp hstep
    refine (keepsOn_shows P key t.send).request (w := t.world s) h (fun buf c hline => ?_) hrequest
    exact ⟨fun _ hrm => Bool.noConfusion hrm, fun hcmd _ => hleaves buf c hline (Or.inl hcmd),
      fun hcmd => hleaves buf c hline (Or.inr hcmd)⟩
  | http c =>
    rw [Fronts.step] at hstep
    split at hstep
    · cases hstep
    · obtain rfl := Option.some.inj hstep
      have heffect : HttpEffect c.req s (c.after s).store := http_process_effect c.req (c.world s)
      generalize (c.after s).store = s₁ at heffect
      cases heffect with
      | none => exact h
      | put hmethod hpath hunder =>
        exact h.obj_add (hleaves (Or.inr hmethod) _ hpath hunder) _ _ _
      | got hpath hunder hmethod hget =>
        exact h.obj_get (fun hrm => hleaves (Or.inl (hmethod hrm)) _ hpath hunder) hget

/-- **A run** that leaves the key alone. -/
theorem Shows.run (h : Shows P key s) {ops : List Op} (hleaves : ∀ op ∈ ops, Leaves key op)
    (hspares : ∀ op ∈ ops, Spares P key op) (hrun : Run.run Fronts.step s ops = some s') :
    Shows P key s' := by
  induction ops generalizing s with
  | nil =>
    obtain rfl := Option.some.inj hrun
    exact h
  | cons op ops ih =>
    obtain ⟨s₁, hstep, hrest⟩ := Run.run_cons_eq_some.mp hrun
    have h₁ := h.step (hleaves op List.mem_cons_self) (hspares op List.mem_cons_self) hstep
    exact ih h₁ (fun op' hop' => hleaves op' (List.mem_cons_of_mem _ hop'))
      (fun op' hop' => hspares op' (List.mem_cons_of_mem _ hop')) hrest

end Step

/-! ### What is put -/

/-- **The operation puts the bytes** under the key. -/
def Writes (key : CString) (bs : List UInt8) : Op → Prop
  | .put key' v use_sfs => key' = key ∧ use_sfs = false ∧ RAW v = some bs
  | .tcp t => Tcp.Plain key ∧ bs ≠ [] ∧ t.bs.length < Tcp.MAX_BUF ∧
      (∃ db, t.malloc.alloc t.mallocs bs.length = some db) ∧
      ∃ more, t.bs = Tcp.putHead key bs.length ++ (bs ++ more)
  | .http c => c.req.method = some .PUT ∧ bodyBytes c.req = some bs ∧
      ∃ path, c.req.path = some path ∧ under dataPrefix path = true ∧ keyOf path = key
  | _ => False

/-- **The operation decodes** what is under the key. -/
def Decodes (key : CString) : Op → Prop
  | .get _ key' use_sfs _ => key' = key ∧ use_sfs = true
  | _ => False

/-- The entry has the bytes. -/
def Bears (bs : List UInt8) (e : ObjEntry) : Prop := e.obj = some bs ∧ e.len = bs.length

/-- And no value but a raw vector of them. -/
def BearsRaw (bs : List UInt8) (e : ObjEntry) : Prop :=
  Bears bs e ∧ ∀ v, e.sWhat = some v → RAW v = some bs

theorem spares_bears (key : CString) (bs : List UInt8) (op : Op) :
    Spares (Bears bs) key op := by
  cases op with
  | get r key' use_sfs rm => exact fun _ e v h _ => h
  | _ => trivial

/-- A call that does not decode makes a raw vector of the bytes. -/
theorem RAW_of_materialise {r : RSession} {bs : List UInt8} {e : ObjEntry} {v : SEXP}
    (h : Bears bs e) (hvalue : materialise r false e.len e.obj = some (some v)) :
    RAW v = some bs := by
  obtain ⟨hobj, hlen⟩ := h
  rw [hobj, hlen, materialise, if_neg Bool.false_ne_true] at hvalue
  split at hvalue
  · rw [if_neg (Nat.lt_irrefl _), List.take_length] at hvalue
    obtain rfl := Option.some.inj (Option.some.inj hvalue)
    exact RAW_rawVector bs
  · cases hvalue

theorem spares_bearsRaw {key : CString} {bs : List UInt8} {op : Op} (h : ¬ Decodes key op) :
    Spares (BearsRaw bs) key op := by
  cases op with
  | get r key' use_sfs rm =>
    intro hkey e v he hvalue
    have hraw : use_sfs = false := Bool.eq_false_iff.mpr fun hsfs => h ⟨hkey, hsfs⟩
    subst hraw
    refine ⟨he.1, fun v' hv' => ?_⟩
    obtain rfl := Option.some.inj hv'
    exact RAW_of_materialise he.1 hvalue
  | _ => trivial

/-- **What is put is shown.** -/
theorem shows_writes {key : CString} {bs : List UInt8} {s s' : Objects} {op : Op}
    {xs ys : Entries (Option (List UInt8)) SEXP} (hrep : Rep s xs ys) (hwrites : Writes key bs op)
    (hstep : step s op = some s') : Shows (BearsRaw bs) key s' := by
  cases op with
  | put key' v use_sfs =>
    obtain ⟨rfl, rfl, hraw⟩ := hwrites
    obtain rfl := Option.some.inj hstep
    have hput : C_put key' v false s = obj_add key' (some v) (some bs) bs.length s := by
      rw [C_put, if_neg Bool.false_ne_true, hraw]
    rw [hput]
    refine shows_obj_add hrep ⟨⟨rfl, rfl⟩, fun v' hv' => ?_⟩
    obtain rfl := Option.some.inj hv'
    exact hraw
  | tcp t =>
    obtain ⟨hkey, hne, hfit, ⟨db, halloc⟩, more, hbs⟩ := hwrites
    obtain ⟨⟨buf', flow, w'⟩, hrequest, rfl⟩ := Option.map_eq_some_iff.mp hstep
    have hpos : 0 < bs.length := List.length_pos_of_ne_nil hne
    rw [hbs] at hrequest hfit
    obtain ⟨buf'', hat, hput⟩ := Tcp.request_put t.send t.malloc (w := t.world s) hkey
      (t.malloc.le_max _ _ _ halloc) hpos hfit t.buf
    rw [hput] at hrequest
    obtain ⟨-, hresult⟩ := Prod.mk.inj (Option.some.inj hrequest)
    have hend : (Tcp.putHead key bs.length).length + bs.length
        ≤ (Tcp.putHead key bs.length ++ (bs ++ more)).length := by
      simp only [List.length_append]
      omega
    have hstore : (Tcp.putPayload t.send t.malloc key bs.length _ _ buf'' (t.world s)).2.store
        = obj_add key none (some bs) bs.length s :=
      Tcp.store_putPayload t.send halloc hat rfl hpos hend
    rw [hresult] at hstore
    change w'.store = obj_add key none (some bs) bs.length s at hstore
    change Shows (BearsRaw bs) key w'.store
    rw [hstore]
    exact shows_obj_add hrep ⟨⟨rfl, rfl⟩, fun v hv => absurd hv.symm (Option.some_ne_none v)⟩
  | http c =>
    obtain ⟨hmethod, hbody, path, hpath, hunder, rfl⟩ := hwrites
    rw [Fronts.step] at hstep
    split at hstep
    · cases hstep
    · obtain rfl := Option.some.inj hstep
      have hlen := sized_putEntry c.passed.announced (keyOf path) bs hbody
      have hstore : (c.after s).store
          = obj_add (keyOf path) none (bodyBytes c.req) (toObjLen c.req.content_length) s := by
        rw [HttpCall.after, http_process]
        simp only [hpath, hunder, if_true, dataRequest, hmethod]
        rfl
      rw [hstore]
      exact shows_obj_add hrep
        ⟨⟨hbody, hlen.symm⟩, fun v hv => absurd hv.symm (Option.some_ne_none v)⟩
  | get r key' use_sfs rm => exact hwrites.elim
  | clean => exact hwrites.elim

/-! ### What is served -/

/-- **The servers answer a `GET` with the bytes**, the TCP server behind the line with their
number, the HTTP server as the body of a response in which their number is not negative. -/
structure Serves (key : CString) (bs : List UInt8) (s : Objects) : Prop where
  tcp : ∀ (send : SendFn) (malloc : Malloc) (buf : Memory) (input : Input) (conn : Conn)
    (mallocs : ℕ), send.Succeeds → Tcp.Nameable key →
    (Tcp.lineOf Tcp.Query.get.word key).length < Tcp.MAX_BUF →
    ∃ buf' calls, Tcp.request send malloc buf (Client.getLine key) ⟨input, conn, s, mallocs⟩
      = some (buf', .again, ⟨input, ⟨calls, conn.out ++ Client.rawReply bs⟩, s, mallocs⟩)
  http : ∀ (c : HttpCall) (closes : Bool) (path : CString), c.send.Succeeds →
    c.req.method = some .GET → c.req.path = some path → under dataPrefix path = true →
    keyOf path = key → bs.length < 2 ^ 31 →
    Responds (exchange closes c.req) c.conn (c.after s) bs

/-- **R gets a raw vector of the bytes**, if it can have one of that length. -/
def Returns (key : CString) (bs : List UInt8) (s : Objects) : Prop :=
  ∀ (r : RSession) (rm : Bool), r.runtime.allocVector .RAWSXP bs.length = true →
    ∃ v s', C_get r key false rm s = some (some v, s') ∧ RAW v = some bs

section Served

variable {key : CString} {bs : List UInt8} {s : Objects}

theorem Shows.serves (h : Shows (Bears bs) key s) : Serves key bs s where
  tcp send malloc buf input conn mallocs hsend hkey hfit := by
    obtain ⟨a, cell, hget, hload, hobj, hlen⟩ := h.looked
    obtain ⟨calls, hanswer⟩ := Tcp.get_raw (w := ⟨input, conn, s, mallocs⟩) hsend hget hload hobj
      hlen.symm
    obtain ⟨buf', hrequest⟩ := Tcp.request_line send malloc (q := .get)
      (w := ⟨input, conn, s, mallocs⟩) hkey hfit buf
    change Tcp.request send malloc buf (Client.getLine key) _
      = (Tcp.get send false key _).map _ at hrequest
    rw [hanswer] at hrequest
    have hout : conn.out ++ (ascii "OK " ++ decimal bs.length ++ [10]) ++ bs
        = conn.out ++ Client.rawReply bs := List.append_assoc ..
    exact ⟨buf', calls, hout ▸ hrequest⟩
  http c closes path hsend hmethod hpath hunder hkey hsmall := by
    obtain ⟨a, cell, hget, hload, hobj, hlen⟩ := h.looked
    subst hkey
    obtain ⟨k, hrun⟩ := getData_raw c.garbage (w := c.world s) hsend hget hload hobj hlen.symm
      c.req.attr
    have hafter : c.after s
        = getData c.send c.garbage true c.req.attr (keyOf path) (c.world s) := by
      rw [HttpCall.after, http_process]
      simp only [hpath, hunder, if_true, dataRequest, hmethod]
    have hhead : (exchange closes c.req).head = false := by
      rw [exchange, hmethod]
      rfl
    rw [hafter, hrun]
    exact ⟨rfl, _, rfl, (read_raw hhead c.req.attr bs).mpr ⟨rfl, Or.inl hsmall⟩⟩

theorem Shows.returns (h : Shows (BearsRaw bs) key s) : Returns key bs s := by
  intro r rm hroom
  obtain ⟨xs, ys, x, hrep, hfind, hbears, hvalue⟩ := h
  -- the call finds the entry, also when it removes it
  obtain ⟨s', hget⟩ : ∃ s', Obj.obj_get key rm s = some (some x.1, s') := by
    have hfound : (xs.find? (hasKey key)).map Prod.fst = some x.1 := by
      rw [hfind]
      rfl
    cases rm with
    | false => exact ⟨s, hfound ▸ hrep.obj_get_find key⟩
    | true =>
      obtain ⟨s', hremove, -⟩ := hrep.obj_get_remove key
      exact ⟨s', hfound ▸ hremove⟩
  have hentry : s.entryAt x.1 = some x.2 := hrep.entryAt_eq_some_iff.mpr
    (List.mem_append_left _ (List.mem_of_find?_eq_some hfind))
  have hfinds := @finds_read _ _ r key false rm _ _ _ hrep hget
  obtain ⟨e, he, hresult⟩ := hfinds
  rw [(entries_obj_get hrep hget).1, hentry] at he
  obtain rfl := Option.some.inj he
  obtain ⟨v, hmade, hraw⟩ : ∃ v, resultOf r false (some x.2) = some (some v) ∧ RAW v = some bs := by
    cases hwhat : x.2.sWhat with
    | some v => exact ⟨v, by rw [resultOf]; simp only [hwhat], hvalue v hwhat⟩
    | none =>
      have hmakes : materialise r false x.2.len x.2.obj = some (some (rawVector bs)) := by
        rw [hbears.1, hbears.2, materialise, if_neg Bool.false_ne_true, if_pos hroom]
        rw [if_neg (Nat.lt_irrefl _), List.take_length]
      exact ⟨rawVector bs, by rw [resultOf]; simp only [hwhat, hmakes], RAW_rawVector bs⟩
  rw [hmade] at hresult
  obtain ⟨⟨res, s''⟩, hcall, hres⟩ := Option.map_eq_some_iff.mp hresult.symm
  obtain rfl : res = some v := hres
  exact ⟨v, s'', hcall, hraw⟩

end Served

/-- **Bytes are served alike.** Once bytes have been put, by whichever front end, both servers
serve exactly these bytes as long as no operation adds to their key or removes it, whatever
else is done in between; and so does R, as long as no call decodes them. -/
theorem bytes_served_alike {ops₁ ops₂ : List Op} {op : Op} {key : CString} {bs : List UInt8}
    {s : Objects} (hrun : run (ops₁ ++ op :: ops₂) = some s) (hwrites : Writes key bs op)
    (hleaves : ∀ op' ∈ ops₂, Leaves key op') :
    Serves key bs s ∧ ((∀ op' ∈ ops₂, ¬ Decodes key op') → Returns key bs s) := by
  obtain ⟨s₁, hrun₁, hrest⟩ := Run.run_append_eq_some.mp hrun
  obtain ⟨s₂, hstep, hrun₂⟩ := Run.run_cons_eq_some.mp hrest
  obtain ⟨xs, ys, hrep, -⟩ := run_sized hrun₁
  have hput := shows_writes hrep hwrites hstep
  constructor
  · have hbears : Shows (Bears bs) key s₂ := by
      obtain ⟨xs', ys', x, hrep', hfind, hraw⟩ := hput
      exact ⟨xs', ys', x, hrep', hfind, hraw.1⟩
    exact (hbears.run hleaves (fun op' _ => spares_bears key bs op') hrun₂).serves
  · intro hraw
    exact (hput.run hleaves (fun op' hop' => spares_bearsRaw (hraw op' hop')) hrun₂).returns

/-- R puts a byte, and then something under another key. -/
theorem bytes_served_alike_seven :
    ∃ s, run ([] ++ .put (cstr [107]) (rawVector [7]) false
        :: [.put (cstr [108]) .NULL true, .clean]) = some s ∧
      Serves (cstr [107]) [7] s ∧ Returns (cstr [107]) [7] s := by
  have hleaves : ∀ op ∈ [Op.put (cstr [108]) .NULL true, .clean], Leaves (cstr [107]) op := by
    intro op hop
    obtain rfl | hop := List.mem_cons.mp hop
    · show cstr [108] ≠ cstr [107]
      decide
    · obtain rfl := List.mem_singleton.mp hop
      trivial
  have hplain : ∀ op ∈ [Op.put (cstr [108]) .NULL true, .clean],
      ¬ Decodes (cstr [107]) op := by
    intro op hop
    obtain rfl | hop := List.mem_cons.mp hop
    · exact id
    · obtain rfl := List.mem_singleton.mp hop
      exact id
  have hwrites : Writes (cstr [107]) [7] (.put (cstr [107]) (rawVector [7]) false) :=
    ⟨rfl, rfl, RAW_rawVector [7]⟩
  obtain ⟨hserves, hreturns⟩ := @bytes_served_alike [] _ _ _ _ _ rfl hwrites hleaves
  exact ⟨_, rfl, hserves, hreturns hplain⟩

end Fronts
end Osrv
