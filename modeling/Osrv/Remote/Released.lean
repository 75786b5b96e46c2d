import Osrv.Remote.Owners

/-!
# Payload memory is released

No step frees a block twice or uses what is not allocated. Two steps lose a block, for
there is nothing left that leads to it: `obj_gc` frees a removed entry and not its payload,
and a TCP worker forgets the buffer of its receive loop when the loop ends, with the whole
payload or without. `Inv.step` says so of one step. `payloads_released_iff` says of runs
that behind every collection the blocks that are allocated are those that are needed
exactly if there was no such step before.
-/

namespace Osrv
namespace Remote

open Bytes Net
open Heap (Addr Ptr Seg addrs)
open Obj (Entries Rep Entry hasKey obj_add obj_get obj_gc)
open Revq (Process Blocks Owned Apart)
open Sfs (SEXP)

variable {T H : Type}

/-! ### Steps that lose a block -/

/-- The receive loop is not at its end. -/
def Fetch.GoesOn (x : Fetch) : RecvResult → Prop
  | .blocked => True
  | .closed | .failed => False
  | .data bs => bs ≠ [] ∧ x.pos + bs.length < x.len

/-- A step that does not lose a block: there is no block in the pool that is collected, and
no receive loop ends. -/
def Keeps (s : State T H) : Act T H → Prop
  | .obj_gc => ∀ ys, Seg s.store.heap s.store.obj_gc_pool ys none → ∀ y ∈ ys, ∀ b,
    y.2.obj ≠ .block b
  | .recvPayload t r => ∀ x, s.tcp t = some x → x.GoesOn r
  | _ => True

/-- The blocks that a step loses. -/
def losses (s : State T H) : Act T H → Set Addr
  | .obj_gc => {b | ∃ ys, Seg s.store.heap s.store.obj_gc_pool ys none ∧
    ∃ y ∈ ys, y.2.obj = .block b}
  | .recvPayload t r => {b | ∃ x, s.tcp t = some x ∧ x.db = b ∧ ¬ x.GoesOn r}
  | _ => ∅

theorem keeps_iff {s : State T H} {act : Act T H} : Keeps s act ↔ losses s act = ∅ := by
  cases act with
  | obj_gc =>
    rw [Set.eq_empty_iff_forall_notMem]
    constructor
    · rintro h b ⟨ys, hseg, y, hy, hb⟩
      exact h ys hseg y hy b hb
    · intro h ys hseg y hy b hb
      exact h b ⟨ys, hseg, y, hy, hb⟩
  | recvPayload t r =>
    rw [Set.eq_empty_iff_forall_notMem]
    constructor
    · rintro h b ⟨x, hx, -, hend⟩
      exact hend (h x hx)
    · intro h x hx
      by_contra hend
      exact h x.db ⟨x, hx, rfl, hend⟩
  | _ => exact ⟨fun _ => rfl, fun _ => trivial⟩

section Steps

variable [DecidableEq T] [DecidableEq H] {s : State T H} {q : Process} {f : Blocks}
  {xs ys : Entries Payload SEXP} {lost : Set Addr}

omit [DecidableEq H] in
theorem setTcp_eq_self {t : T} (ht : s.tcp t = none) : s.setTcp t none = s := by
  unfold State.setTcp
  rw [← ht, Function.update_eq_self]

omit [DecidableEq T] [DecidableEq H] in
/-- Writing into a block that somebody has. -/
theorem Inv.fillBlock (h : Inv s q f xs ys lost) {b : Addr} (hq : q.blocks b = none)
    {mem bs : List UInt8} {pos : ℕ} (hmem : f b = some mem)
    (hle : pos + bs.length ≤ mem.length) :
    Inv { s with process := q.beside (Function.update f b (some (overlay pos bs mem))) } q
      (Function.update f b (some (overlay pos bs mem))) xs ys lost := by
  have hne : f b ≠ none := by
    rw [hmem]
    exact Option.some_ne_none mem
  refine ⟨rfl, h.apart.update hq _, h.owned, h.rep, h.ledger.write hne _, ?_, h.lines⟩
  refine (h.sized.congr fun o c ho => ?_).process _
  by_cases hc : c = b
  · rw [hc, sizeAt_update_self, length_overlay hle, sizeAt, hmem]
    rfl
  · exact sizeAt_update_of_ne hc _

/-! ### The TCP server -/

/-- A new block for a worker. -/
theorem Inv.allocTcp (h : Inv s q f xs ys lost) {t : T} (ht : s.tcp t = none) {x : Fetch}
    (hx : x.pos < x.len) (hb : s.process.blocks x.db = none) {mem : List UInt8}
    (hmem : mem.length = x.len) :
    Inv ({ s with process := q.beside (Function.update f x.db (some mem)) }.setTcp t (some x)) q
      (Function.update f x.db (some mem)) xs ys lost := by
  obtain ⟨hq, hf⟩ := h.fresh hb
  refine ⟨rfl, h.apart.update hq _, h.owned, h.rep, ?_, ?_, h.lines⟩
  · rw [held_setTcp]
    refine h.ledger.alloc hf ?_ mem
    show (s.tcp t).map Fetch.db = none
    rw [ht]
    rfl
  · have hsized : Sized s (Function.update f x.db (some mem)) := by
      refine h.sized.congr fun o b ho => sizeAt_update_of_ne ?_ _
      rintro rfl
      exact h.ledger.not_held hf o ho
    refine (hsized.process _).setTcp fun y hy => ?_
    obtain rfl := Option.some.inj hy
    exact ⟨hx, by rw [sizeAt_update_self, hmem]⟩

/-- A new block for an entry. -/
theorem Inv.allocEntry (h : Inv s q f xs ys lost) {b : Addr} (hb : s.process.blocks b = none)
    (mem : List UInt8) (key : CString) (sWhat : Option SEXP) (len : ℕ) :
    ∃ x, Inv { s with
      process := q.beside (Function.update f b (some mem))
      store := obj_add key sWhat (.block b) len s.store } q
      (Function.update f b (some mem)) (x :: xs) ys lost := by
  obtain ⟨hq, hf⟩ := h.fresh hb
  refine ⟨_, rfl, h.apart.update hq _, h.owned, h.rep.obj_add .., ?_, ?_, h.lines⟩
  · have hheld := held_obj_add (s := { s with
      process := q.beside (Function.update f b (some mem)) }) key sWhat (.block b) len
    rw [hheld]
    exact h.ledger.alloc hf held_top mem
  · have hsized : Sized s (Function.update f b (some mem)) := by
      refine h.sized.congr fun o c ho => sizeAt_update_of_ne ?_ _
      rintro rfl
      exact h.ledger.not_held hf o ho
    exact ⟨hsized.tcp, hsized.http⟩

/-- **The payload of a `PUT`** gets a block, which goes to the store if it is there as a
whole and stays with the worker otherwise. -/
theorem Inv.putPayload (h : Inv s q f xs ys lost) {t : T} (ht : s.tcp t = none) {len : ℕ}
    (hlen : 0 < len) {found : Ptr} (hfound : ∀ b ∈ found, s.process.blocks b = none)
    (a : CString) (rest : List UInt8) (junk : Memory) :
    ∃ s', putPayload t a len rest found junk s = some s' ∧ ∃ f' xs', Inv s' q f' xs' ys lost := by
  cases found with
  -- without memory nothing changes
  | none => exact ⟨s, rfl, f, xs, h⟩
  -- the block is new, and as long as the payload
  | some db =>
    have hdb : s.process.blocks db = none := hfound db rfl
    obtain ⟨hq, hf⟩ := h.fresh hdb
    have hjunk : (read junk len).length = len := length_read junk len
    have hmalloc : malloc db (read junk len) s.process
        = some (q.beside (Function.update f db (some (read junk len)))) := by
      rw [h.process]
      exact malloc_beside hq hf _
    simp only [Remote.putPayload, hmalloc, Option.bind_eq_bind, Option.bind_some]
    by_cases hrest : rest = []
    -- nothing of the payload is there yet
    · rw [if_pos hrest]
      refine ⟨_, rfl, Function.update f db (some (read junk len)), xs, ?_⟩
      rw [fetch, if_pos hlen]
      exact h.allocTcp ht (x := ⟨db, len, 0⟩) hlen hdb hjunk
    · rw [if_neg hrest]
      by_cases hwhole : len ≤ rest.length
      -- all of it is there: the entry is added
      · have htake : 0 + (rest.take len).length ≤ (read junk len).length := by
          rw [hjunk, List.length_take]
          omega
        rw [if_pos hwhole, fill_again hq htake, Option.bind_some]
        obtain ⟨x, hadd⟩ := h.allocEntry hdb (overlay 0 (rest.take len) (read junk len)) a none len
        by_cases hmore : len < rest.length
        · rw [if_pos hmore]
          exact ⟨_, rfl, _, _, hadd⟩
        · -- the bytes are copied once more, and the loop has nothing to do
          have hall : 0 + rest.length ≤ (overlay 0 (rest.take len) (read junk len)).length := by
            rw [length_overlay htake, hjunk]
            omega
          obtain ⟨y, hadd⟩ := h.allocEntry hdb
            (overlay 0 rest (overlay 0 (rest.take len) (read junk len))) a none len
          rw [if_neg hmore, fill_again hq hall, Option.bind_some, fetch, if_neg (by omega)]
          refine ⟨_, rfl, ?_⟩
          rw [setTcp_eq_self]
          · exact ⟨_, _, hadd⟩
          · exact ht
      -- a part of it is there: the worker keeps the block
      · have hpart : 0 + rest.length ≤ (read junk len).length := by
          rw [hjunk]
          omega
        rw [if_neg hwhole, fill_again hq hpart, Option.bind_some, fetch, if_pos (by omega)]
        refine ⟨_, rfl, Function.update f db (some (overlay 0 rest (read junk len))), xs, ?_⟩
        refine h.allocTcp ht (x := ⟨db, len, rest.length⟩) (show rest.length < len by omega) hdb ?_
        rw [length_overlay hpart, hjunk]

/-- A worker whose receive loop ends. -/
theorem Inv.loseTcp (h : Inv s q f xs ys lost) {t : T} {x : Fetch} (hx : s.tcp t = some x) :
    Inv (s.setTcp t none) q f xs ys (lost ∪ {x.db}) := by
  refine ⟨h.process, h.apart, h.owned, h.rep, ?_, h.sized.setTcp fun y hy => (by cases hy),
    h.lines⟩
  have hlose := h.ledger.lose {.tcp t} (s.setTcp t none).held ?_ ?_
  -- the block that is lost is that of the fetch
  · have hset : {b | ∃ o ∈ ({.tcp t} : Set (Owner T H)), s.held o = some b} = {x.db} := by
      ext b
      constructor
      · rintro ⟨o, rfl, ho⟩
        have ho : (s.tcp t).map Fetch.db = some b := ho
        rw [hx] at ho
        exact (Option.some.inj ho).symm
      · rintro rfl
        refine ⟨.tcp t, rfl, ?_⟩
        show (s.tcp t).map Fetch.db = some x.db
        rw [hx]
        rfl
    rwa [hset] at hlose
  · rintro o rfl
    rw [held_setTcp, Function.update_self]
    rfl
  · intro o ho
    rw [held_setTcp, Function.update_of_ne ho]

/-- **A round of the receive loop** keeps the block exactly if the loop goes on. -/
theorem Inv.recvPayload (h : Inv s q f xs ys lost) {t : T} {r : RecvResult} {x : Fetch}
    (hx : s.tcp t = some x) (hr : ∀ bs, r = .data bs → bs.length ≤ x.need) :
    ∃ s', recvPayload t r s = some s' ∧
      ∃ f', Inv s' q f' xs ys (lost ∪ losses s (.recvPayload t r)) := by
  have hlosses : losses s (.recvPayload t r) = {b | x.db = b ∧ ¬ x.GoesOn r} := by
    ext b
    constructor
    · rintro ⟨y, hy, hb, hend⟩
      obtain rfl := Option.some.inj (hx.symm.trans hy)
      exact ⟨hb, hend⟩
    · rintro ⟨hb, hend⟩
      exact ⟨x, hx, hb, hend⟩
  -- where the loop ends nobody frees the block, and the worker is the only one that has it
  have hend : ¬ x.GoesOn r → losses s (.recvPayload t r) = {x.db} := by
    intro hend
    rw [hlosses]
    ext b
    exact ⟨fun hb => hb.1.symm, fun hb => ⟨hb.symm, hend⟩⟩
  have hon : x.GoesOn r → losses s (.recvPayload t r) = ∅ := by
    intro hon
    rw [hlosses, Set.eq_empty_iff_forall_notMem]
    exact fun b hb => hb.2 hon
  simp only [Remote.recvPayload, hx]
  cases r with
  | blocked =>
    -- the worker still waits
    rw [hon trivial, Set.union_empty]
    exact ⟨s, rfl, f, h⟩
  | closed =>
    rw [hend id]
    exact ⟨_, rfl, f, h.loseTcp hx⟩
  | failed =>
    rw [hend id]
    exact ⟨_, rfl, f, h.loseTcp hx⟩
  | data bs =>
    by_cases hbs : bs.length < 1
    · -- the client has closed
      have hnil : bs = [] := List.length_eq_zero_iff.mp (Nat.lt_one_iff.mp hbs)
      rw [hend fun hgo => hgo.1 hnil]
      simp only [if_pos hbs]
      exact ⟨_, rfl, f, h.loseTcp hx⟩
    · -- a part of the payload, which the block has room for
      obtain ⟨hpos, hsize⟩ := h.sized.tcp t x hx
      have hheld : s.held (.tcp t) = some x.db := by
        show (s.tcp t).map Fetch.db = some x.db
        rw [hx]
        rfl
      obtain ⟨hf, hq⟩ := h.not_event hheld
      obtain ⟨mem, hmem, hlen⟩ := Option.map_eq_some_iff.mp hsize
      have hle : x.pos + bs.length ≤ mem.length := by
        have hneed := hr bs rfl
        unfold Fetch.need at hneed
        split at hneed <;> omega
      have hfill : fill x.db x.pos bs s.process
          = some (q.beside (Function.update f x.db (some (overlay x.pos bs mem)))) := by
        rw [h.process]
        exact fill_beside hq hmem hle
      -- the block is the same one, with more of the payload in it
      have hsame := h.fillBlock hq hmem hle
      simp only [if_neg hbs, hfill, Option.bind_eq_bind, Option.bind_some]
      refine ⟨_, rfl, Function.update f x.db (some (overlay x.pos bs mem)), ?_⟩
      by_cases hmore : x.pos + bs.length < x.len
      · -- more is to come, and the worker keeps the block
        have hgo : x.GoesOn (.data bs) := by
          refine ⟨?_, hmore⟩
          rintro rfl
          exact hbs Nat.zero_lt_one
        rw [hon hgo, Set.union_empty, fetch, if_pos hmore]
        refine ⟨hsame.process, hsame.apart, hsame.owned, hsame.rep, ?_, ?_, hsame.lines⟩
        · rw [held_setTcp_same]
          · exact hsame.ledger
          · show some x.db = (s.tcp t).map Fetch.db
            rw [hx]
            rfl
        · refine hsame.sized.setTcp fun y hy => ?_
          obtain rfl := Option.some.inj hy
          refine ⟨hmore, ?_⟩
          show sizeAt _ x.db = some x.len
          rw [sizeAt_update_self, length_overlay hle, hlen]
      · -- the payload is there, and the loop ends with `close`
        rw [hend fun hgo => hmore hgo.2, fetch, if_neg hmore]
        exact hsame.loseTcp (x := x) hx

/-! ### The HTTP server -/

/-- A connection that keeps its body. -/
theorem Inv.setHttp (h : Inv s q f xs ys lost) {w : H} {c : Connection}
    (hbody : c.request.body = (s.http w).request.body)
    (hsize : ∀ b, c.request.body = some b → c.body_pos ≤ c.request.content_length.toNat ∧
      sizeAt f b = some c.request.content_length.toNat)
    (hlines : c.part ≠ .BODY → c.request.body = none) : Inv (s.setHttp w c) q f xs ys lost where
  process := h.process
  apart := h.apart
  owned := h.owned
  rep := h.rep
  ledger := by
    rw [held_setHttp_same hbody]
    exact h.ledger
  sized := h.sized.setHttp hsize
  lines w' := by
    by_cases hw : w' = w
    · have hself : (s.setHttp w c).http w' = c := by
        show Function.update s.http w c w' = c
        rw [hw, Function.update_self]
      rw [hself]
      exact hlines
    · have hother : (s.setHttp w c).http w' = s.http w' := Function.update_of_ne hw ..
      rw [hother]
      exact h.lines w'

/-- A connection that no longer has a body, whose block has been freed or passed on. -/
theorem Inv.dropBody (h : Inv s q f xs ys lost) {w : H} {b : Addr}
    (hb : (s.http w).request.body = some b) {q' : Process} (howned : ∃ d σ, Owned q' [] d σ)
    (hapart : Apart (Function.update f b none) q') {c : Connection}
    (hc : c.request.body = none) :
    Inv ({ s with process := q'.beside (Function.update f b none) }.setHttp w c) q'
      (Function.update f b none) xs ys lost := by
  have hheld : s.held (.http w) = some b := hb
  have hledger := h.ledger.free hheld
  have hset : ({ s with process := q'.beside (Function.update f b none) }.setHttp w c).held
      = Function.update s.held (.http w) none := by
    rw [held_setHttp, hc]
    rfl
  have hsized : Sized (s.setHttp w c) f :=
    h.sized.setHttp fun b' hb' => by rw [hc] at hb'; cases hb'
  refine ⟨rfl, hapart, howned, h.rep, hset ▸ hledger, ?_, fun w' => ?_⟩
  · refine (hsized.congr fun o b' ho => sizeAt_update_of_ne ?_ _).process _
    -- whoever else has a block has another one
    rintro rfl
    rw [held_setHttp, hc] at ho
    obtain ⟨-, hnone⟩ | ⟨hne, ho⟩ := Ledger.update_eq_some_iff.mp ho
    · cases hnone
    · exact hne (h.ledger.unique o (.http w) b' ho hheld)
  · by_cases hw : w' = w
    · have hself : (s.setHttp w c).http w' = c := by
        show Function.update s.http w c w' = c
        rw [hw, Function.update_self]
      intro _
      show ((s.setHttp w c).http w').request.body = none
      rw [hself, hc]
    · have hother : (s.setHttp w c).http w' = s.http w' := Function.update_of_ne hw ..
      show ((s.setHttp w c).http w').part ≠ .BODY → ((s.setHttp w c).http w').request.body = none
      rw [hother]
      exact h.lines w'

/-- **Lines of a request.** -/
theorem Inv.readLines (h : Inv s q f xs ys lost) {w : H} (hpart : (s.http w).part ≠ .BODY)
    (rd : Http.Reading) : Inv (readLines w rd s) q f xs ys lost := by
  have hnone := h.lines w hpart
  refine h.setHttp rfl (fun b hb => ?_) fun _ => hnone
  have hb : (s.http w).request.body = some b := hb
  rw [hnone] at hb
  cases hb

/-- **The blank line** gives a request the block for its body. -/
theorem Inv.endHeaders (h : Inv s q f xs ys lost) {w : H} (hpart : (s.http w).part ≠ .BODY)
    {found : Ptr} (hfound : ∀ b ∈ found, s.process.blocks b = none) (rest : List UInt8)
    (junk : Memory) :
    ∃ s', endHeaders w rest found junk s = some s' ∧ ∃ f', Inv s' q f' xs ys lost := by
  have hnone := h.lines w hpart
  unfold Remote.endHeaders
  dsimp only
  -- a refusal allocates nothing
  split
  · exact ⟨s, rfl, f, h⟩
  · split
    · split
      · exact ⟨s, rfl, f, h⟩
      · cases found with
        | none => exact ⟨s, rfl, f, h⟩
        | some b =>
          -- the block for the body is new
          have hb : s.process.blocks b = none := hfound b rfl
          obtain ⟨hq, hf⟩ := h.fresh hb
          let len := (s.http w).request.content_length.toNat
          have hjunk : (read junk len).length = len := length_read junk len
          have hmalloc : malloc b (read junk len) s.process
              = some (q.beside (Function.update f b (some (read junk len)))) := by
            rw [h.process]
            exact malloc_beside hq hf _
          -- what has arrived of the body is no more than the body
          obtain ⟨n, hn, hle⟩ : ∃ n, (if (s.http w).request.method = some .GET ∨
              (s.http w).request.method = some .HEAD then 0 else min len rest.length) = n ∧
              n ≤ len := by
            refine ⟨_, rfl, ?_⟩
            split
            · exact Nat.zero_le len
            · exact Nat.min_le_left ..
          have htake : 0 + (rest.take n).length ≤ (read junk len).length := by
            rw [hjunk, List.length_take]
            omega
          let mem := overlay 0 (rest.take n) (read junk len)
          have hmem : mem.length = len := (length_overlay htake).trans hjunk
          refine ⟨({ s with process := q.beside (Function.update f b (some mem)) }.setHttp w
            ⟨.BODY, { (s.http w).request with body := some b }, n⟩), ?_,
            Function.update f b (some mem), ?_⟩
          · simp only [Option.bind_eq_bind]
            rw [hmalloc, Option.bind_some, hn, fill_again hq htake, Option.bind_some]
            rfl
          -- the request owns the block
          · refine ⟨rfl, h.apart.update hq _, h.owned, h.rep, ?_, ?_, fun w' => ?_⟩
            · rw [held_setHttp]
              exact h.ledger.alloc (o := .http w) hf hnone mem
            · have hsized : Sized s (Function.update f b (some mem)) := by
                refine h.sized.congr fun o c ho => sizeAt_update_of_ne ?_ _
                -- the sizes of the others are as they were
                rintro rfl
                exact h.ledger.not_held hf o ho
              refine (hsized.process _).setHttp fun c hc => ?_
              obtain rfl := Option.some.inj hc
              exact ⟨hle, by rw [sizeAt_update_self, hmem]⟩
            -- the other connections have not changed
            · by_cases hw : w' = w
              · intro hne
                refine absurd ?_ hne
                show (Function.update s.http w _ w').part = .BODY
                rw [hw, Function.update_self]
              · show (Function.update s.http w _ w').part ≠ .BODY →
                  (Function.update s.http w _ w').request.body = none
                rw [Function.update_of_ne hw]
                exact h.lines w'
    · refine ⟨_, rfl, f, h.setHttp rfl (fun b hb => ?_) fun hne => absurd rfl hne⟩
      have hb : (s.http w).request.body = some b := hb
      rw [hnone] at hb
      cases hb

/-- **A part of a body** is written into its block. -/
theorem Inv.recvBody (h : Inv s q f xs ys lost) {w : H} {r : RecvResult}
    (hbody : (s.http w).request.body ≠ none)
    (hr : ∀ bs, r = .data bs →
      bs.length ≤ (s.http w).request.content_length.toNat - (s.http w).body_pos) :
    ∃ s', recvBody w r s = some s' ∧ ∃ f', Inv s' q f' xs ys lost := by
  obtain ⟨b, hb⟩ := Option.ne_none_iff_exists'.mp hbody
  cases r with
  -- without data the body is left as it is
  | blocked => exact ⟨s, rfl, f, h⟩
  | closed => exact ⟨s, rfl, f, h⟩
  | failed => exact ⟨s, rfl, f, h⟩
  -- the part fits into the rest of the block
  | data bs =>
    obtain ⟨hpos, hsize⟩ := h.sized.http w b hb
    obtain ⟨hf, hq⟩ := h.not_event (o := .http w) hb
    obtain ⟨mem, hmem, hlen⟩ := Option.map_eq_some_iff.mp hsize
    have hroom := hr bs rfl
    have hle : (s.http w).body_pos + bs.length ≤ mem.length := by omega
    have hfill : fill b (s.http w).body_pos bs s.process
        = some (q.beside (Function.update f b
            (some (overlay (s.http w).body_pos bs mem)))) := by
      rw [h.process]
      exact fill_beside hq hmem hle
    simp only [Remote.recvBody, hb, hfill, Option.bind_eq_bind, Option.bind_some]
    have hsame := h.fillBlock hq hmem hle
    refine ⟨_, rfl, Function.update f b (some (overlay (s.http w).body_pos bs mem)),
      hsame.setHttp rfl (fun c hc => ?_) fun hne => h.lines w hne⟩
    obtain ⟨-, hsize'⟩ := hsame.sized.http w c hc
    refine ⟨?_, hsize'⟩
    show (s.http w).body_pos + bs.length ≤ (s.http w).request.content_length.toNat
    omega

omit [DecidableEq T] [DecidableEq H] in
/-- The store with its entries in other places. -/
theorem Inv.setStore (h : Inv s q f xs ys lost) {store : Objects}
    {xs' ys' : Entries Payload SEXP} (hrep : Rep store xs' ys')
    (hentry : store.entryAt = s.store.entryAt) :
    Inv { s with store := store } q f xs' ys' lost where
  process := h.process
  apart := h.apart
  owned := h.owned
  rep := hrep
  ledger := by
    rw [held_store hentry]
    exact h.ledger
  sized := ⟨h.sized.tcp, h.sized.http⟩
  lines := h.lines

/-- **What the handler leaves behind**: a request, whose body may be gone, and a process and
a store that are in balance with it. -/
def Handled (s : State T H) (w : H) (lost : Set Addr)
    (r : Option (Request × Process × Objects)) : Prop :=
  ∃ req p store q' f' xs' ys', r = some (req, p, store) ∧
    Inv ({ s with process := p, store := store }.setHttp w { s.http w with request := req })
      q' f' xs' ys' lost

/-- The request of a worker, whose path may have been cut. -/
structure Same (s : State T H) (w : H) (req : Request) : Prop where
  body : req.body = (s.http w).request.body
  content_length : req.content_length = (s.http w).request.content_length

/-- A handler that leaves the body alone. -/
theorem Inv.handled (h : Inv s q f xs ys lost) {w : H} {req : Request} (hreq : Same s w req) :
    Inv (s.setHttp w { s.http w with request := req }) q f xs ys lost := by
  refine h.setHttp hreq.body (fun b hb => ?_) fun hne => hreq.body.trans (h.lines w hne)
  show (s.http w).body_pos ≤ req.content_length.toNat ∧ _ = some req.content_length.toNat
  rw [hreq.content_length]
  exact h.sized.http w b (hreq.body.symm.trans hb)

/-- The handler leaves everything as it is. -/
theorem Inv.handled_same (h : Inv s q f xs ys lost) {w : H} {req : Request}
    (hreq : Same s w req) : Handled s w lost (some (req, s.process, s.store)) :=
  ⟨req, s.process, s.store, q, f, xs, ys, rfl, h.handled hreq⟩

/-- **The work interface** makes the body the payload of an event, or leaves it. -/
theorem Inv.pushWork (h : Inv s q f xs ys lost) {w : H} {req : Request} (hreq : Same s w req)
    (queue : Option ℕ) {entry : Ptr} (hentry : ∀ a ∈ entry, s.process.events.mem a = none) :
    Handled s w lost (pushWork queue entry req (s.process, s.store)) := by
  cases entry with
  -- without memory for an event the body stays
  | none => exact h.handled_same hreq
  | some a =>
    simp only [Remote.pushWork]
    cases hb : req.body with
    | none =>
      -- an event without a body
      have hwork : ∃ o, Revq.postWork queue a ⟨none, req.content_length.toNat⟩ s.process
          = some (o, ⟨none, req.content_length.toNat⟩, s.process) := by
        cases queue with
        | none => exact ⟨_, rfl⟩
        | some i => exact ⟨_, rfl⟩
      obtain ⟨o, hwork⟩ := hwork
      rw [Option.bind_eq_bind, hwork, Option.bind_some]
      have hreq' : Same s w { req with body := none } := ⟨hb ▸ hreq.body, hreq.content_length⟩
      exact h.handled_same hreq'
    | some b =>
      -- the body becomes the payload of the event
      have hheld : (s.http w).request.body = some b := hreq.body ▸ hb
      obtain ⟨-, hsize⟩ := h.sized.http w b hheld
      obtain ⟨bytes, hbytes, hlen⟩ := Option.map_eq_some_iff.mp hsize
      rw [← hreq.content_length] at hlen
      have ha : q.events.mem a = none := by
        have hmem := hentry a rfl
        rw [h.process] at hmem
        exact hmem
      obtain ⟨d, σ, howned⟩ := h.owned
      -- unless the event is not accepted
      obtain ⟨code, hwork⟩ | ⟨p', d', σ', hwork, howned', hapart⟩ :=
        howned.postWork h.apart queue ha hbytes
      · rw [← h.process, hlen] at hwork
        rw [Option.bind_eq_bind, hwork, Option.bind_some]
        have hreq' : Same s w { req with body := some b } := ⟨hb ▸ hreq.body, hreq.content_length⟩
        exact h.handled_same hreq'
      · rw [← h.process, hlen] at hwork
        rw [Option.bind_eq_bind, hwork, Option.bind_some]
        exact ⟨_, _, _, p', Function.update f b none, xs, ys, rfl,
          h.dropBody hheld ⟨d', σ', howned'⟩ hapart rfl⟩

theorem Inv.otherRequest (h : Inv s q f xs ys lost) {w : H} {req : Request} (hreq : Same s w req)
    (queue : Option ℕ) {entry : Ptr} (hentry : ∀ a ∈ entry, s.process.events.mem a = none)
    (path : CString) :
    Handled s w lost (otherRequest queue entry path req (s.process, s.store)) := by
  unfold Remote.otherRequest
  split
  · exact h.pushWork hreq queue hentry
  · exact h.handled_same hreq

/-- **The store takes a body over.** -/
theorem Inv.putData (h : Inv s q f xs ys lost) {w : H} {req : Request} (hreq : Same s w req)
    (key : CString) (len : ℕ) :
    Handled s w lost (some ({ req with body := none }, s.process,
      obj_add key none (.ofPtr req.body) len s.store)) := by
  let s₁ : State T H := { s with store := obj_add key none (.ofPtr req.body) len s.store }
  let c : Connection := { s.http w with request := { req with body := none } }
  let x : Addr × Entry Payload SEXP := (s.store.heap.top, ⟨len, .ofPtr req.body, none, key⟩)
  refine ⟨_, _, _, q, f, x :: xs, ys, rfl, ?_⟩
  show Inv (s₁.setHttp w c) q f (x :: xs) ys lost
  have hne : (Owner.http w : Owner T H) ≠ .entry s.store.heap.top := by simp
  -- the block goes from the connection to the new entry
  have hheld : (s₁.setHttp w c).held = Function.update (Function.update s.held (.http w) none)
      (.entry s.store.heap.top) (s.held (.http w)) := by
    rw [held_setHttp, held_obj_add, Payload.toPtr_ofPtr, hreq.body, Function.update_comm hne]
    rfl
  refine ⟨h.process, h.apart, h.owned, h.rep.obj_add .., ?_, ?_, fun w' => ?_⟩
  -- it has one owner before and after
  · rw [hheld]
    exact h.ledger.pass hne held_top
  · have hsized : Sized s₁ f := ⟨h.sized.tcp, h.sized.http⟩
    exact hsized.setHttp fun b hb => by cases hb
  -- the other connections have not changed
  · by_cases hw : w' = w
    · intro _
      show (Function.update s.http w c w').request.body = none
      rw [hw, Function.update_self]
    · show (Function.update s.http w c w').part ≠ .BODY →
        (Function.update s.http w c w').request.body = none
      rw [Function.update_of_ne hw]
      exact h.lines w'

/-- A lookup that does not concern the body. -/
theorem Inv.handled_store (h : Inv s q f xs ys lost) {w : H} {req : Request}
    (hreq : Same s w req) {store : Objects} {xs' ys' : Entries Payload SEXP}
    (hrep : Rep store xs' ys') (hentry : store.entryAt = s.store.entryAt) :
    Handled s w lost (some (req, s.process, store)) :=
  ⟨req, s.process, store, q, f, xs', ys', rfl, (h.setStore hrep hentry).handled ⟨hreq.1, hreq.2⟩⟩

theorem Inv.dataRequest (h : Inv s q f xs ys lost) {w : H} {req : Request} (hreq : Same s w req)
    (queue : Option ℕ) {entry : Ptr} (hentry : ∀ a ∈ entry, s.process.events.mem a = none)
    (key : CString) :
    Handled s w lost (dataRequest queue entry key req (s.process, s.store)) := by
  unfold Remote.dataRequest
  split
  · rw [h.rep.obj_get_find key]
    exact h.handled_store hreq h.rep rfl
  · rw [h.rep.obj_get_find key]
    exact h.handled_store hreq h.rep rfl
  · obtain ⟨store, hget, hrep, -⟩ := h.rep.obj_get_remove key
    rw [hget]
    exact h.handled_store hreq hrep (h.rep.entryAt_remove hrep)
  · exact h.putData hreq key _
  · exact h.otherRequest hreq queue hentry _

/-- **The handler** keeps the balance, whatever the request is. -/
theorem Inv.http_process (h : Inv s q f xs ys lost) {w : H}
    (hpath : (s.http w).request.path ≠ none) (queue : Option ℕ) {entry : Ptr}
    (hentry : ∀ a ∈ entry, s.process.events.mem a = none) :
    Handled s w lost (http_process queue entry (s.http w).request (s.process, s.store)) := by
  obtain ⟨path, hpath⟩ := Option.ne_none_iff_exists'.mp hpath
  simp only [Remote.http_process, hpath]
  split
  · have hcut : Same s w { (s.http w).request with
        path := some (cstr (Http.dataPrefix ++ (Http.keyOf path).bytes)) } := ⟨rfl, rfl⟩
    exact h.dataRequest hcut queue hentry (Http.keyOf path)
  · exact h.otherRequest ⟨rfl, rfl⟩ queue hentry path

/-- **The end of a request** frees its body, if the handler has not passed it on. -/
theorem Inv.clear_http_request (h : Inv s q f xs ys lost) (w : H) :
    ∃ s', clear_http_request w s = some s' ∧ ∃ f', Inv s' q f' xs ys lost := by
  cases hb : (s.http w).request.body with
  | none =>
    refine ⟨s.setHttp w .init, ?_, f, h.setHttp hb.symm (fun b hb => by cases hb) fun _ => rfl⟩
    simp only [Remote.clear_http_request, hb]
    rfl
  | some b =>
    obtain ⟨hf, hq⟩ := h.not_event (o := .http w) hb
    have hfree := free_beside hq hf
    rw [← h.process] at hfree
    refine ⟨_, ?_, _, h.dropBody hb h.owned (h.apart.update hq none) (c := .init) rfl⟩
    simp only [Remote.clear_http_request, hb, hfree]
    rfl

/-! ### The store and the queues -/

omit [DecidableEq T] [DecidableEq H] in
/-- **Collecting** loses the blocks of the entries in the pool. -/
theorem Inv.obj_gc (h : Inv s q f xs ys lost) :
    ∃ store, Obj.obj_gc s.store = some store ∧
      Inv { s with store := store } q f xs [] (lost ∪ losses s .obj_gc) := by
  obtain ⟨store, hgc, hrep, -⟩ := h.rep.obj_gc
  refine ⟨store, hgc, h.process, h.apart, h.owned, hrep, ?_, ⟨h.sized.tcp, h.sized.http⟩, h.lines⟩
  let S : Set (Owner T H) := {o | ∃ a ∈ addrs ys, o = .entry a}
  have hentry := h.rep.entryAt_gc hrep
  have hlose := h.ledger.lose S ({ s with store := store } : State T H).held ?_ ?_
  · -- what is lost are the payloads of the entries in the pool
    have hset : {b | ∃ o ∈ S, s.held o = some b} = losses s .obj_gc := by
      ext b
      constructor
      · rintro ⟨o, ⟨a, ha, rfl⟩, ho⟩
        obtain ⟨y, hy, rfl⟩ := List.mem_map.mp ha
        obtain ⟨e, he, hobj⟩ := Option.bind_eq_some_iff.mp ho
        have hyentry := h.rep.entryAt_eq_some_iff.mpr (List.mem_append_right xs hy)
        obtain rfl := Option.some.inj (hyentry.symm.trans he)
        exact ⟨ys, h.rep.pool, y, hy, Payload.toPtr_eq_some_iff.mp hobj⟩
      · rintro ⟨zs, hseg, y, hy, hobj⟩
        obtain rfl := h.rep.pool.eq_of_none hseg
        refine ⟨.entry y.1, ⟨y.1, List.mem_map_of_mem hy, rfl⟩, ?_⟩
        have hyentry := h.rep.entryAt_eq_some_iff.mpr (List.mem_append_right xs hy)
        show (s.store.entryAt y.1).bind _ = some b
        rw [hyentry]
        exact Payload.toPtr_eq_some_iff.mpr hobj
    rwa [hset] at hlose
  -- they are held by nobody any more
  · rintro o ⟨a, ha, rfl⟩
    show (store.entryAt a).bind _ = none
    rw [hentry, if_pos ha]
    rfl
  -- the others are held as before
  · intro o ho
    cases o with
    | tcp t => rfl
    | http w => rfl
    | entry a =>
      have ha : a ∉ addrs ys := fun ha => ho ⟨a, ha, rfl⟩
      show (store.entryAt a).bind _ = (s.store.entryAt a).bind _
      rw [hentry, if_neg ha]

omit [DecidableEq T] [DecidableEq H] in
/-- **A call to the queues** leaves everything else alone. -/
theorem Inv.call (h : Inv s q f xs ys lost) {act : Revq.Act} (hact : act.isPost = false)
    (hfresh : Revq.Fresh ([], s.process) act) :
    ∃ o p q', Revq.perform s.process act = some (o, p) ∧
      Inv { s with process := p } q' f xs ys lost := by
  obtain ⟨d, σ, howned⟩ := h.owned
  have hfresh' : Revq.Fresh ([], q) act := by
    rw [h.process] at hfresh
    cases act <;> first | exact hfresh | cases hact
  obtain ⟨q', d', hperform, howned'⟩ := howned.perform hfresh'
  obtain ⟨hperform, hapart⟩ := Revq.perform_beside hact h.apart hperform
  rw [← h.process] at hperform
  exact ⟨_, q'.beside f, q', hperform, rfl, hapart, ⟨d', _, howned'⟩, h.rep, h.ledger,
    h.sized.process _, h.lines⟩

/-- An entry whose data is not a block. -/
theorem Inv.addPlain (h : Inv s q f xs ys lost) (key : CString) (sWhat : Option SEXP)
    {data : Payload} (hdata : data.toPtr = none) (len : ℕ) :
    ∃ x, Inv { s with store := obj_add key sWhat data len s.store } q f (x :: xs) ys lost := by
  refine ⟨_, h.process, h.apart, h.owned, h.rep.obj_add .., ?_, ⟨h.sized.tcp, h.sized.http⟩,
    h.lines⟩
  rw [held_obj_add_none key sWhat len hdata]
  exact h.ledger

omit [DecidableEq T] [DecidableEq H] in
/-- A step that loses nothing. -/
theorem Inv.unchanged (h : Inv s q f xs ys lost) : Inv s q f xs ys (lost ∪ ∅) := by
  rwa [Set.union_empty]

/-! ### Runs -/

/-- The blocks are in balance, but for those that are lost. -/
def Balanced (s : State T H) (lost : Set Addr) : Prop :=
  ∃ q f xs ys, Inv s q f xs ys lost

/-- **A step** goes through and loses what `losses` says. -/
theorem Balanced.step (h : Balanced s lost) (queue : Option ℕ) {act : Act T H}
    (hact : Allowed s act) :
    ∃ s', step queue s act = some s' ∧ Balanced s' (lost ∪ losses s act) := by
  obtain ⟨q, f, xs, ys, h⟩ := h
  cases act with
  -- the steps of a TCP connection
  | put t a len rest found junk =>
    obtain ⟨ht, hlen, hfound⟩ := hact
    obtain ⟨s', hrun, f', xs', h'⟩ := h.putPayload ht hlen hfound a rest junk
    exact ⟨s', hrun, q, f', xs', ys, h'.unchanged⟩
  | recvPayload t r =>
    obtain ⟨x, hx, hr⟩ := hact
    obtain ⟨s', hrun, f', h'⟩ := h.recvPayload hx hr
    exact ⟨s', hrun, q, f', xs, ys, h'⟩
  -- those of an HTTP connection
  | lines w rd =>
    obtain ⟨hpart, -⟩ := hact
    exact ⟨_, rfl, q, f, xs, ys, (h.readLines hpart rd).unchanged⟩
  | endHeaders w rest found junk =>
    obtain ⟨hpart, hfound⟩ := hact
    obtain ⟨s', hrun, f', h'⟩ := h.endHeaders hpart hfound rest junk
    exact ⟨s', hrun, q, f', xs, ys, h'.unchanged⟩
  | recvBody w r =>
    obtain ⟨hbody, hr⟩ := hact
    obtain ⟨s', hrun, f', h'⟩ := h.recvBody hbody hr
    exact ⟨s', hrun, q, f', xs, ys, h'.unchanged⟩
  | process w entry =>
    obtain ⟨hpath, hentry⟩ := hact
    obtain ⟨req, p, store, q', f', xs', ys', hrun, h'⟩ := h.http_process hpath queue hentry
    refine ⟨({ s with process := p, store := store }.setHttp w
      { s.http w with request := req }), ?_, q', f', xs', ys', ?_⟩
    · simp only [Remote.step, process_request, hrun, Option.bind_eq_bind, Option.bind_some]
      rfl
    · exact h'.unchanged
  | clear w =>
    obtain ⟨s', hrun, f', h'⟩ := h.clear_http_request w
    exact ⟨s', hrun, q, f', xs, ys, h'.unchanged⟩
  -- an entry that is removed goes to the pool with what it holds
  | remove key =>
    obtain ⟨store, hget, hrep, -⟩ := h.rep.obj_get_remove key
    have h' := h.setStore hrep (h.rep.entryAt_remove hrep)
    refine ⟨{ s with store := store }, ?_, q, f, _, _, h'.unchanged⟩
    simp only [Remote.step, hget, Option.bind_eq_bind, Option.bind_some]
    rfl
  -- the entries of `C_put` hold no block
  | C_put key sWhat use_sfs =>
    simp only [Remote.step]
    split
    · obtain ⟨x, h'⟩ := h.addPlain key (some sWhat) (show Payload.null.toPtr = none from rfl) 0
      exact ⟨_, rfl, q, f, _, ys, h'.unchanged⟩
    · split
      · exact ⟨s, rfl, q, f, xs, ys, h.unchanged⟩
      · next bytes _ =>
        obtain ⟨x, h'⟩ := h.addPlain key (some sWhat)
          (show (Payload.raw bytes).toPtr = none from rfl) bytes.length
        exact ⟨_, rfl, q, f, _, ys, h'.unchanged⟩
  -- calls of the event queue do not touch the payloads
  | call act =>
    obtain ⟨hpost, hfresh⟩ := hact
    obtain ⟨o, p, q', hrun, h'⟩ := h.call hpost hfresh
    refine ⟨{ s with process := p }, ?_, q', f, xs, ys, ?_⟩
    · simp only [Remote.step, hrun, Option.bind_eq_bind, Option.bind_some]
      rfl
    · exact h'.unchanged
  -- the pool is emptied: this is where payloads are released
  | obj_gc =>
    obtain ⟨store, hgc, h'⟩ := h.obj_gc
    refine ⟨{ s with store := store }, ?_, q, f, xs, [], h'⟩
    simp only [Remote.step, hgc, Option.bind_eq_bind, Option.bind_some]
    rfl

/-- **The state behind a collection** has only the blocks that are needed, exactly if none
has been lost. -/
theorem Balanced.released_iff (h : Balanced s lost) (queue : Option ℕ) :
    ∃ s', Remote.step queue s .obj_gc = some s' ∧ (s'.Released ↔ lost ∪ losses s .obj_gc = ∅) := by
  obtain ⟨q, f, xs, ys, h⟩ := h
  obtain ⟨store, hgc, h'⟩ := h.obj_gc
  refine ⟨{ s with store := store }, ?_, h'.released_iff⟩
  simp only [Remote.step, hgc, Option.bind_eq_bind, Option.bind_some]
  rfl

end Steps

variable [DecidableEq T] [DecidableEq H]

/-- A run of steps that are allowed, with what has been lost in it. -/
structure Accounted (queue : Option ℕ) (acts : List (Act T H)) (s : State T H)
    (lost : Set Addr) : Prop where
  run : run queue acts = some s
  balanced : Balanced s lost
  /-- Nothing has been lost if every step has kept what it had. -/
  lost : lost = ∅ ↔ Run.Guarded (step queue) .init Keeps acts

/-- **A run of allowed steps** goes through. -/
theorem run_accounted {queue : Option ℕ} {acts : List (Act T H)}
    (h : Run.Guarded (step queue) .init Allowed acts) : ∃ s lost, Accounted queue acts s lost := by
  induction acts using List.reverseRecOn with
  | nil =>
    exact ⟨_, ∅, rfl, ⟨_, _, _, _, Inv.init⟩, iff_of_true rfl (Run.guarded_nil _)⟩
  | append_singleton acts act ih =>
    obtain ⟨s, lost, hacc⟩ := ih h.of_append
    have hact : Allowed s act := h acts act s (List.prefix_refl _) hacc.run
    obtain ⟨s', hstep, hbal⟩ := hacc.balanced.step queue hact
    refine ⟨s', lost ∪ losses s act, Run.run_snoc_eq_some.mpr ⟨s, hacc.run, hstep⟩, hbal, ?_⟩
    rw [Set.union_empty_iff, hacc.lost, ← keeps_iff, Run.guarded_snoc_iff hacc.run]

/-- A run that goes on with a collection. -/
theorem run_collected {queue : Option ℕ} {acts : List (Act T H)}
    (h : Run.Guarded (step queue) .init Allowed acts) :
    ∃ s, run queue (acts ++ [.obj_gc]) = some s ∧
      (s.Released ↔ Run.Guarded (step queue) .init Keeps (acts ++ [.obj_gc])) := by
  obtain ⟨s, lost, hacc⟩ := run_accounted h
  obtain ⟨s', hstep, hiff⟩ := hacc.balanced.released_iff queue
  refine ⟨s', Run.run_snoc_eq_some.mpr ⟨s, hacc.run, hstep⟩, hiff.trans ?_⟩
  rw [Set.union_empty_iff, hacc.lost, ← keeps_iff, Run.guarded_snoc_iff hacc.run]

/-- **Payload memory is released.** In every run of the servers no step frees a block twice
or uses what is not allocated, and behind every collection the blocks that are allocated
are those of the entries in the store, of requests that are being received and of events,
exactly if up to it no collection has found a block in the pool and no receive loop of a
TCP worker has ended. -/
theorem payloads_released_iff {queue : Option ℕ} {acts : List (Act T H)}
    (h : Run.Guarded (step queue) .init Allowed acts) :
    (∀ p, p <+: acts → ∃ s, run queue p = some s ∧
        ∀ l, p = l ++ [.obj_gc] → s.Released) ↔
      ∀ l, l ++ [.obj_gc] <+: acts → Run.Guarded (step queue) .init Keeps (l ++ [.obj_gc]) := by
  have hpre : ∀ {p}, p <+: acts → Run.Guarded (step queue) .init Allowed p := by
    rintro p ⟨r, rfl⟩
    exact h.of_append
  constructor
  · intro hall l hl
    obtain ⟨s, hs, hiff⟩ := run_collected (hpre ((List.prefix_append l _).trans hl))
    obtain ⟨s', hs', hreleased⟩ := hall _ hl
    obtain rfl := Option.some.inj (hs.symm.trans hs')
    exact hiff.mp (hreleased l rfl)
  · intro hall p hp
    obtain ⟨s, lost, hacc⟩ := run_accounted (hpre hp)
    refine ⟨s, hacc.run, ?_⟩
    rintro l rfl
    obtain ⟨s', hs', hiff⟩ := run_collected (hpre ((List.prefix_append l _).trans hp))
    obtain rfl := Option.some.inj (hs'.symm.trans hacc.run)
    exact hiff.mpr (hall l hp)

/-- A payload that is put, in one piece. -/
def putOne : List (Act Unit Unit) := [.put () (cstr [107]) 1 [7] (some 0) fun _ => 0]

theorem putOne_allowed (queue : Option ℕ) : Run.Guarded (step queue) .init Allowed putOne := by
  refine Run.Guarded.cons ⟨rfl, Nat.one_pos, fun b hb => ?_⟩ fun s _ => Run.guarded_nil _
  rfl

/-- A collection while it is in the store. -/
def collectedOne : List (Act Unit Unit) := putOne ++ [.obj_gc]

theorem collectedOne_allowed : Run.Guarded (step none) .init Allowed collectedOne := by
  obtain ⟨s, lost, hacc⟩ := run_accounted (putOne_allowed none)
  exact (Run.guarded_snoc_iff hacc.run).mpr ⟨putOne_allowed none, trivial⟩

theorem payloads_released_collected : Run.Guarded (step none) .init Allowed collectedOne ∧
    ((∀ p, p <+: collectedOne → ∃ s, run none p = some s ∧
        ∀ l, p = l ++ [.obj_gc] → s.Released) ↔
      ∀ l, l ++ [.obj_gc] <+: collectedOne →
        Run.Guarded (step none) .init Keeps (l ++ [.obj_gc])) :=
  ⟨collectedOne_allowed, payloads_released_iff collectedOne_allowed⟩

/-- The payload of a key that is removed. -/
def removedOne : List (Act Unit Unit) := putOne ++ [.remove (cstr [107])]

theorem removedOne_allowed : Run.Guarded (step none) .init Allowed removedOne := by
  obtain ⟨s, lost, hacc⟩ := run_accounted (putOne_allowed none)
  exact (Run.guarded_snoc_iff hacc.run).mpr ⟨putOne_allowed none, trivial⟩

/-- The collection frees the entry, and its payload stays allocated for ever. -/
theorem removed_payload_kept : Run.Guarded (step none) .init Allowed removedOne ∧
    ∃ s, run none (removedOne ++ [.obj_gc]) = some s ∧ ¬ s.Released := by
  refine ⟨removedOne_allowed, ?_⟩
  obtain ⟨s, hrun, hiff⟩ := run_collected removedOne_allowed
  refine ⟨s, hrun, fun hreleased => ?_⟩
  have hkeeps := hiff.mp hreleased removedOne .obj_gc _ (List.prefix_refl _) rfl
  -- the entry is in the pool
  exact hkeeps [(0, ⟨1, .block 0, none, cstr [107]⟩)] ⟨rfl, none, rfl, rfl⟩ _
    (List.mem_singleton_self _) 0 rfl

end Remote
end Osrv
