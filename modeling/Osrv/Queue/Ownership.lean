import Osrv.Queue.Deque
import Osrv.Queue.Revq

/-!
# Every event has one owner

Ownership of an entry goes from the function that creates it to a queue, from the queue
to an external pointer of R, and from there back to a queue or to the finaliser. The
payload belongs to the entry.

`Ideal` says what all this is for: queues and references that hold byte strings, without
entries, addresses or memory. `events_owned_once` says that every sequence of calls does
what it does there, so that R gets the bytes that were pushed, and that afterwards each
live entry is on one queue, once, or in one external pointer. No call frees or uses what
is not allocated.
-/

namespace Osrv
namespace Revq

open Bytes Links Queue

/-! ### What the events are for -/

/-- Queues and references that hold byte strings. -/
structure Ideal where
  queues : ℕ → List (List UInt8)
  refs : List (Option (List UInt8))

def Ideal.init : Ideal := ⟨fun _ => [], []⟩

/-- A string at the front or at the end of a queue. -/
def Ideal.push (q : ℕ) (front : Bool) (bytes : List UInt8) (σ : Ideal) : Ideal :=
  { σ with queues := Function.update σ.queues q (pushed front bytes (σ.queues q)) }

/-- The first string of a queue, as a value or as a reference. -/
def Ideal.pop (q : ℕ) (timer : Option Bool) (ref room : Bool) (σ : Ideal) : Outcome × Ideal :=
  match σ.queues q with
  | [] => (if timer = some false then .waiting else .null, σ)
  | bytes :: rest =>
    let queues := Function.update σ.queues q rest
    if ref then (.ref σ.refs.length, ⟨queues, σ.refs ++ [some bytes]⟩)
    else if room then (.raw bytes, ⟨queues, σ.refs ++ [none]⟩)
    else (.error, ⟨queues, σ.refs ++ [some bytes]⟩)

/-- What a call does. -/
def Ideal.perform (σ : Ideal) : Act → Outcome × Ideal
  | .pushRaw q _ bytes front => (.done, σ.push q front bytes)
  | .pushRef q i front =>
    match σ.refs[i]? with
    | some (some bytes) => (.done, { σ.push q front bytes with refs := σ.refs.set i none })
    | _ => (.error, σ)
  | .pop q timer ref room _ => σ.pop q timer ref room
  | .finalize i => (.done, { σ with refs := σ.refs.set i none })
  | .post none _ _ => (.code 404, σ)
  | .post (some _) _ none => (.code 403, σ)
  | .post (some q) _ (some (_, bytes)) =>
    if bytes = [] then (.code 403, σ) else (.code 200, σ.push q false bytes)
  | .resolved q _ msg name => (.done, σ.push q false (resolvedBytes msg name ++ [0, 0, 0]))

/-- The outcomes of a sequence of calls, and what is left. -/
def ideal (acts : List Act) : List Outcome × Ideal :=
  acts.foldl (fun s a => (s.1 ++ [(s.2.perform a).1], (s.2.perform a).2)) ([], .init)

/-! ### What the queues do to the contents of entries -/

/-- The contents of the entries. -/
def vals {α : Type} (s : State α) (a : Addr) : Option α := (s.mem a).map Node.val

section Vals

variable {α : Type} {s s' : State α} {q : ℕ} {e r : Ptr}

/-- Pushing changes links only. -/
theorem ev_push_vals {front : Bool} (h : ev_push q e front s = some (r, s')) :
    vals s' = vals s := by
  funext b
  cases e with
  | none =>
    obtain ⟨-, rfl⟩ := Prod.mk.inj (Option.some.inj h)
    rfl
  | some a =>
    simp only [ev_push, Option.bind_eq_bind] at h
    split at h
    · obtain ⟨-, rfl⟩ := Prod.mk.inj (Option.some.inj h)
      rfl
    · split at h
      · obtain ⟨m₁, h₁, h⟩ := Option.bind_eq_some_iff.mp h
        obtain ⟨m₂, h₂, h⟩ := Option.bind_eq_some_iff.mp h
        obtain ⟨-, rfl⟩ := Prod.mk.inj (Option.some.inj h)
        exact (setPrev_val h₂ b).trans (setNext_val h₁ b)
      · obtain ⟨t, -, h⟩ := Option.bind_eq_some_iff.mp h
        obtain ⟨m₁, h₁, h⟩ := Option.bind_eq_some_iff.mp h
        obtain ⟨m₂, h₂, h⟩ := Option.bind_eq_some_iff.mp h
        obtain ⟨-, rfl⟩ := Prod.mk.inj (Option.some.inj h)
        exact (setNext_val h₂ b).trans (setPrev_val h₁ b)

/-- So does popping. -/
theorem ev_pop_vals (h : ev_pop q s = some (r, s')) : vals s' = vals s := by
  funext b
  simp only [ev_pop, Option.bind_eq_bind] at h
  split at h
  · obtain ⟨-, rfl⟩ := Prod.mk.inj (Option.some.inj h)
    rfl
  · obtain ⟨s₁, hrm, h⟩ := Option.bind_eq_some_iff.mp h
    obtain ⟨-, rfl⟩ := Prod.mk.inj (Option.some.inj h)
    simp only [ev_rm_, Option.bind_eq_bind] at hrm
    obtain ⟨n, -, h⟩ := Option.bind_eq_some_iff.mp hrm
    obtain ⟨m₁, h₁, h⟩ := Option.bind_eq_some_iff.mp h
    obtain ⟨n', -, h⟩ := Option.bind_eq_some_iff.mp h
    obtain ⟨m₂, h₂, h⟩ := Option.bind_eq_some_iff.mp h
    obtain ⟨m₃, h₃, h⟩ := Option.bind_eq_some_iff.mp h
    obtain ⟨m₄, h₄, h⟩ := Option.bind_eq_some_iff.mp h
    obtain rfl := Option.some.inj h
    calc (m₄ b).map Node.val = (m₃ b).map Node.val := setNext_val h₄ b
      _ = (m₂ b).map Node.val := setPrev_val h₃ b
      _ = (m₁ b).map Node.val := relinkNext_val h₂ b
      _ = (s.mem b).map Node.val := relinkPrev_val h₁ b

end Vals

/-! ### Payloads -/

/-- The bytes of an event. -/
def Event.contents (blocks : Addr → Option (List UInt8)) (e : Event) : Option (List UInt8) :=
  match e.data with
  | .null => some []
  | .inStruct mem => some mem
  | .block b => blocks b

/-- The payload is there, with the length of the event, and can be released. -/
def Event.Sound (blocks : Addr → Option (List UInt8)) (e : Event) : Prop :=
  (∃ bytes, e.contents blocks = some bytes ∧ bytes.length = e.len) ∧
    ∀ b, e.data = .block b → e.free_fn = some .ev_free_data

/-- **Payloads belong to entries**: every live entry has its own, and every block is the
payload of one. -/
structure Payloads (vals : Addr → Option Event) (blocks : Addr → Option (List UInt8)) : Prop where
  sound : ∀ a e, vals a = some e → e.Sound blocks
  unique : ∀ a a' e e' b, vals a = some e → vals a' = some e' →
    e.data = .block b → e'.data = .block b → a = a'
  owned : ∀ b, blocks b ≠ none → ∃ a e, vals a = some e ∧ e.data = .block b

/-- The bytes of the event at an address. -/
def contentsAt (vals : Addr → Option Event) (blocks : Addr → Option (List UInt8)) (a : Addr) :
    Option (List UInt8) :=
  (vals a).bind (Event.contents blocks)

section Payloads

variable {vals : Addr → Option Event} {blocks : Addr → Option (List UInt8)} {a : Addr} {e : Event}

/-- The blocks that are left when an event is released. -/
def Event.leaves (blocks : Addr → Option (List UInt8)) (e : Event) : Addr → Option (List UInt8) :=
  match e.data with
  | .block b => Function.update blocks b none
  | _ => blocks

theorem contents_block {b : Addr} (hd : e.data = .block b) : e.contents blocks = blocks b := by
  simp only [Event.contents, hd]

theorem contents_update {b : Addr} (hb : e.data ≠ .block b) (o : Option (List UInt8)) :
    e.contents (Function.update blocks b o) = e.contents blocks := by
  unfold Event.contents
  split
  · rfl
  · rfl
  · rename_i c hc
    have hcb : c ≠ b := by
      rintro rfl
      exact hb hc
    exact Function.update_of_ne hcb ..

theorem Event.Sound.update {b : Addr} (h : e.Sound blocks) (hb : e.data ≠ .block b)
    (o : Option (List UInt8)) : e.Sound (Function.update blocks b o) := by
  obtain ⟨⟨bytes, hbytes, hlen⟩, hfree⟩ := h
  exact ⟨⟨bytes, (contents_update hb o).trans hbytes, hlen⟩, hfree⟩

/-- A new entry with the bytes in it. -/
theorem Payloads.create (h : Payloads vals blocks) (ha : vals a = none) (he : e.Sound blocks)
    (hno : ∀ b, e.data ≠ .block b) : Payloads (Function.update vals a (some e)) blocks where
  sound c e' hc := by
    by_cases hca : c = a
    · rw [hca, Function.update_self] at hc
      exact Option.some.inj hc ▸ he
    · rw [Function.update_of_ne hca] at hc
      exact h.sound c e' hc
  unique c c' e₁ e₂ b hc hc' hd hd' := by
    by_cases hca : c = a
    · rw [hca, Function.update_self] at hc
      exact absurd (Option.some.inj hc ▸ hd) (hno b)
    · by_cases hca' : c' = a
      · rw [hca', Function.update_self] at hc'
        exact absurd (Option.some.inj hc' ▸ hd') (hno b)
      · rw [Function.update_of_ne hca] at hc
        rw [Function.update_of_ne hca'] at hc'
        exact h.unique c c' e₁ e₂ b hc hc' hd hd'
  owned b hb := by
    obtain ⟨c, e', hc, hd⟩ := h.owned b hb
    have hca : c ≠ a := by
      rintro rfl
      rw [ha] at hc
      cases hc
    exact ⟨c, e', by rwa [Function.update_of_ne hca], hd⟩

/-- A new entry that takes a new block over. -/
theorem Payloads.createBlock (h : Payloads vals blocks) (ha : vals a = none) {b : Addr}
    (hb : blocks b = none) {bytes : List UInt8} (hd : e.data = .block b)
    (hlen : bytes.length = e.len) (hfree : e.free_fn = some .ev_free_data) :
    Payloads (Function.update vals a (some e)) (Function.update blocks b (some bytes)) := by
  -- no entry has the block yet, for its payload would be there
  have hnew : ∀ c e', vals c = some e' → e'.data ≠ .block b := by
    intro c e' hc hd'
    obtain ⟨⟨bytes', hbytes', -⟩, -⟩ := h.sound c e' hc
    rw [contents_block hd', hb] at hbytes'
    cases hbytes'
  refine ⟨fun c e' hc => ?_, fun c c' e₁ e₂ b' hc hc' hd₁ hd₂ => ?_, fun b' hb' => ?_⟩
  · by_cases hca : c = a
    · rw [hca, Function.update_self] at hc
      obtain rfl := Option.some.inj hc
      refine ⟨⟨bytes, ?_, hlen⟩, fun _ _ => hfree⟩
      rw [contents_block hd]
      exact Function.update_self ..
    · rw [Function.update_of_ne hca] at hc
      exact (h.sound c e' hc).update (hnew c e' hc) _
  · by_cases hca : c = a
    · by_cases hca' : c' = a
      · rw [hca, hca']
      · rw [hca, Function.update_self] at hc
        rw [Function.update_of_ne hca'] at hc'
        obtain rfl := Option.some.inj hc
        obtain rfl : b = b' := Data.block.inj (hd.symm.trans hd₁)
        exact absurd hd₂ (hnew c' e₂ hc')
    · rw [Function.update_of_ne hca] at hc
      by_cases hca' : c' = a
      · rw [hca', Function.update_self] at hc'
        obtain rfl := Option.some.inj hc'
        obtain rfl : b = b' := Data.block.inj (hd.symm.trans hd₂)
        exact absurd hd₁ (hnew c e₁ hc)
      · rw [Function.update_of_ne hca'] at hc'
        exact h.unique c c' e₁ e₂ b' hc hc' hd₁ hd₂
  · by_cases hbb : b' = b
    · exact ⟨a, e, Function.update_self .., by rw [hbb, hd]⟩
    · rw [Function.update_of_ne hbb] at hb'
      obtain ⟨c, e', hc, hd'⟩ := h.owned b' hb'
      have hca : c ≠ a := by
        rintro rfl
        rw [ha] at hc
        cases hc
      exact ⟨c, e', by rwa [Function.update_of_ne hca], hd'⟩

/-- Another entry does not have the payload of this one. -/
theorem Payloads.data_ne (h : Payloads vals blocks) (ha : vals a = some e) {c : Addr} {e' : Event}
    (hc : vals c = some e') (hca : c ≠ a) {b : Addr} (hd : e.data = .block b) :
    e'.data ≠ .block b :=
  fun hd' => hca (h.unique c a e' e b hc ha hd' hd)

/-- **Releasing an entry** with its payload leaves all others as they are. -/
theorem Payloads.release (h : Payloads vals blocks) (ha : vals a = some e) :
    Payloads (Function.update vals a none) (e.leaves blocks) ∧
      ∀ c, c ≠ a → contentsAt (Function.update vals a none) (e.leaves blocks) c
        = contentsAt vals blocks c := by
  -- an entry that is left was there before
  have hother : ∀ c e', Function.update vals a none c = some e' → c ≠ a ∧ vals c = some e' := by
    intro c e' hc
    by_cases hca : c = a
    · rw [hca, Function.update_self] at hc
      cases hc
    · rw [Function.update_of_ne hca] at hc
      exact ⟨hca, hc⟩
  -- its data is not in the block that is freed
  have hsame : ∀ c e', vals c = some e' → c ≠ a →
      e'.contents (e.leaves blocks) = e'.contents blocks := by
    intro c e' hc hca
    unfold Event.leaves
    split
    · rename_i b hd
      exact contents_update (h.data_ne ha hc hca hd) none
    · rfl
  refine ⟨⟨fun c e' hc => ?_, fun c c' e₁ e₂ b hc hc' hd hd' => ?_, fun b hb => ?_⟩,
    fun c hca => ?_⟩
  · obtain ⟨hca, hc⟩ := hother c e' hc
    obtain ⟨⟨bytes, hbytes, hlen⟩, hfree⟩ := h.sound c e' hc
    exact ⟨⟨bytes, (hsame c e' hc hca).trans hbytes, hlen⟩, hfree⟩
  · exact h.unique c c' e₁ e₂ b (hother c e₁ hc).2 (hother c' e₂ hc').2 hd hd'
  -- a block that is left is not that of `e`
  · have hb' : blocks b ≠ none ∧ e.data ≠ .block b := by
      cases hd : e.data with
      | null => exact ⟨by simpa [Event.leaves, hd] using hb, by simp⟩
      | inStruct mem => exact ⟨by simpa [Event.leaves, hd] using hb, by simp⟩
      | block b' =>
        by_cases hbb : b = b'
        · exact absurd (by simp [Event.leaves, hd, hbb]) hb
        · refine ⟨by simpa [Event.leaves, hd, Function.update_of_ne hbb] using hb, ?_⟩
          simpa using Ne.symm hbb
    obtain ⟨c, e', hc, hd⟩ := h.owned b hb'.1
    have hca : c ≠ a := by
      rintro rfl
      rw [ha] at hc
      exact hb'.2 (Option.some.inj hc ▸ hd)
    exact ⟨c, e', by rwa [Function.update_of_ne hca], hd⟩
  · rw [contentsAt, contentsAt, Function.update_of_ne hca]
    cases hc : vals c with
    | none => rfl
    | some e' => exact hsame c e' hc hca

end Payloads

/-! ### The invariant -/

/-- The entries that external pointers own. -/
def owned (refs : List Ptr) : List Addr := refs.filterMap id

/-- An external pointer that is set to null gives its entry back. -/
theorem owned_set {refs : List Ptr} {i : ℕ} {e : Addr} (hi : refs[i]? = some (some e)) :
    (e :: owned (refs.set i none)).Perm (owned refs) := by
  induction refs generalizing i with
  | nil => cases hi
  | cons p refs ih =>
    cases i with
    | zero =>
      obtain rfl : p = some e := by simpa using hi
      exact .refl _
    | succ i =>
      have hrest := ih (i := i) (by simpa using hi)
      cases p with
      | none => exact hrest
      | some a => exact (List.Perm.swap a e _).trans (hrest.cons a)

/-- **The invariant of the calls.** `own` are the entries that the call under way owns, and
`d q` are those on the queue `q`. -/
structure Owned (p : Process) (own : List Addr) (d : ℕ → List (Addr × Event)) (σ : Ideal) :
    Prop where
  inv : Inv ⟨p.events, own ++ owned p.refs⟩ d
  payloads : Payloads (vals p.events) p.blocks
  /-- The queues hold what they should. -/
  queues : ∀ q, (addrs (d q)).map (contentsAt (vals p.events) p.blocks) = (σ.queues q).map some
  /-- So do the references. -/
  refs : p.refs.map (Option.map (contentsAt (vals p.events) p.blocks))
    = σ.refs.map (Option.map some)

theorem Owned.init : Owned .init [] (fun _ => []) .init where
  inv := Inv.init
  payloads := by
    refine ⟨fun a e h => ?_, fun a a' e e' b h => ?_, fun b h => absurd rfl h⟩
    · cases h
    · cases h
  queues _ := rfl
  refs := rfl

section Moves

variable {p : Process} {own own' : List Addr} {d : ℕ → List (Addr × Event)} {σ : Ideal} {a : Addr}
  {q : ℕ} {bytes : List UInt8}

theorem inv_perm {held held' : List Addr} (h : Inv ⟨p.events, held⟩ d) (hp : held.Perm held') :
    Inv ⟨p.events, held'⟩ d where
  toRep := h.toRep
  nodup_held := hp.nodup_iff.mp h.nodup_held
  held b hb := h.held b (hp.mem_iff.mpr hb)
  all b hb := (h.all b hb).imp_left hp.mem_iff.mp

theorem mem_owned {refs : List Ptr} : a ∈ owned refs ↔ some a ∈ refs := by
  simp [owned]

/-- What the bytes at other addresses are does not matter. -/
theorem Owned.congr (h : Owned p own d σ) (own' : List Addr) (p' : Process)
    (hrefs : p'.refs = p.refs)
    (hinv : Inv ⟨p'.events, own' ++ owned p.refs⟩ d)
    (hpay : Payloads (vals p'.events) p'.blocks)
    (hsame : ∀ c, (∃ q, c ∈ addrs (d q)) ∨ some c ∈ p.refs →
      contentsAt (vals p'.events) p'.blocks c = contentsAt (vals p.events) p.blocks c) :
    Owned p' own' d σ where
  inv := by rwa [hrefs]
  payloads := hpay
  queues q := by
    rw [← h.queues q]
    exact List.map_congr_left fun c hc => hsame c (.inl ⟨q, hc⟩)
  refs := by
    rw [hrefs, ← h.refs]
    refine List.map_congr_left fun r hr => ?_
    cases r with
    | none => rfl
    | some c => exact congrArg some (hsame c (.inr hr))

/-- **A new entry** is owned by the call that creates it. -/
theorem Owned.create (h : Owned p [] d σ) (ha : p.events.mem a = none) {v : Event}
    {blocks : Addr → Option (List UInt8)}
    (hpay : Payloads (Function.update (vals p.events) a (some v)) blocks)
    (hsame : ∀ c, c ≠ a → contentsAt (Function.update (vals p.events) a (some v)) blocks c
      = contentsAt (vals p.events) p.blocks c) :
    ∃ s, ev_create a v p.events = some s ∧
      vals s = Function.update (vals p.events) a (some v) ∧ Owned ⟨s, p.refs, blocks⟩ [a] d σ := by
  obtain ⟨w, hstep, hinv⟩ := h.inv.create v ha
  obtain ⟨s, hcreate, hw⟩ := Option.bind_eq_some_iff.mp hstep
  obtain rfl := Option.some.inj hw
  have hvals : vals s = Function.update (vals p.events) a (some v) := by
    rw [ev_create, if_pos ha] at hcreate
    obtain rfl := Option.some.inj hcreate
    funext c
    by_cases hca : c = a
    · rw [hca]
      simp [vals]
    · simp [vals, Function.update_of_ne hca]
  refine ⟨s, hcreate, hvals, ?_⟩
  refine h.congr _ ⟨s, p.refs, blocks⟩ rfl hinv (hvals ▸ hpay) fun c hc => ?_
  rw [hvals]
  refine hsame c ?_
  rintro rfl
  rcases hc with ⟨q, hc⟩ | hc
  · exact (h.inv.list q).ne_none hc ha
  · obtain ⟨⟨v', hv'⟩, -⟩ := h.inv.held c (mem_owned.mpr hc)
    rw [ha] at hv'
    cases hv'

/-- The bytes of a new entry are those that it is created with. -/
theorem contentsAt_update (vals : Addr → Option Event) (v : Event)
    (blocks : Addr → Option (List UInt8)) :
    contentsAt (Function.update vals a (some v)) blocks a = v.contents blocks := by
  rw [contentsAt, Function.update_self]
  rfl

/-- **Pushing** hands the entry over to the queue. -/
theorem Owned.push (h : Owned p [a] d σ) (front : Bool)
    (hbytes : contentsAt (vals p.events) p.blocks a = some bytes) :
    ∃ s d', ev_push q (some a) front p.events = some (some a, s) ∧
      Owned { p with events := s } [] d' (σ.push q front bytes) := by
  obtain ⟨w, v, hstep, hinv⟩ := h.inv.push q front (List.mem_cons_self ..)
  obtain ⟨⟨v', hv'⟩, hqueue⟩ := h.inv.held a (List.mem_cons_self ..)
  obtain ⟨s, hpush, -, -⟩ := h.inv.toRep.ev_push (q := q) front hv' hqueue
  have hpush : ev_push q (some a) front p.events = some (some a, s) := hpush
  simp only [Queue.step, hpush, Option.bind_eq_bind, Option.bind_some] at hstep
  obtain rfl := Option.some.inj hstep
  have hvals : vals s = vals p.events := ev_push_vals hpush
  refine ⟨s, Function.update d q (pushed front (a, v) (d q)), hpush, ?_, ?_, fun q' => ?_, ?_⟩
  · have herase : ([a] ++ owned p.refs).erase a = owned p.refs := List.erase_cons_head ..
    rwa [herase] at hinv
  · show Payloads (vals s) p.blocks
    rw [hvals]
    exact h.payloads
  · show List.map (contentsAt (vals s) p.blocks) _ = _
    show _ = List.map some (Function.update σ.queues q (pushed front bytes (σ.queues q)) q')
    rw [hvals]
    by_cases hq : q' = q
    · subst hq
      rw [Function.update_self, Function.update_self, addrs_pushed]
      cases front with
      | true => simp [pushed, hbytes, h.queues]
      | false => simp [pushed, hbytes, h.queues]
    · rw [Function.update_of_ne hq, Function.update_of_ne hq]
      exact h.queues q'
  · show List.map (Option.map (contentsAt (vals s) p.blocks)) p.refs = _
    rw [hvals]
    exact h.refs

/-- **Popping** hands the first entry over to the call. -/
theorem Owned.pop (h : Owned p [] d σ) (q : ℕ) :
    (σ.queues q = [] ∧ ev_pop q p.events = some (none, p.events) ∧
        (p.events.queue q).head = none) ∨
    ∃ bytes rest e s d', σ.queues q = bytes :: rest ∧ ev_pop q p.events = some (some e, s) ∧
      (p.events.queue q).head ≠ none ∧
      Owned { p with events := s } [e] d' { σ with queues := Function.update σ.queues q rest } ∧
      contentsAt (vals s) p.blocks e = some bytes := by
  have hq := h.queues q
  have hhead : (p.events.queue q).head = (addrs (d q)).head? := h.inv.head_eq q
  cases hd : d q with
  | nil =>
    rw [hd] at hq hhead
    -- an empty queue
    left
    exact ⟨List.map_eq_nil_iff.mp hq.symm, h.inv.toRep.ev_pop_nil hd, hhead⟩
  | cons x xs =>
    -- the entry leaves the queue and is held by the call
    right
    obtain ⟨e, s, hpop, he, -, hinv⟩ := h.inv.pop q
    rw [hd] at hq hhead he hinv
    obtain rfl : e = some x.1 := he
    obtain ⟨bytes, rest, hσ⟩ : ∃ bytes rest, σ.queues q = bytes :: rest := by
      cases hσ : σ.queues q with
      | nil =>
        rw [hσ] at hq
        cases hq
      | cons bytes rest => exact ⟨bytes, rest, rfl⟩
    rw [hσ, addrs, List.map_cons, List.map_cons, List.map_cons, List.cons.injEq] at hq
    obtain ⟨hbytes, hrest⟩ := hq
    -- the entries themselves do not change
    have hvals : vals s = vals p.events := ev_pop_vals hpop
    refine ⟨bytes, rest, x.1, s, _, hσ, hpop, ?_, ⟨hinv, ?_, fun q' => ?_, ?_⟩, ?_⟩
    · rw [hhead]
      simp [addrs]
    · show Payloads (vals s) p.blocks
      rw [hvals]
      exact h.payloads
    · show List.map (contentsAt (vals s) p.blocks) _ = _
      show _ = List.map some (Function.update σ.queues q rest q')
      rw [hvals]
      -- the other queues do not change
      by_cases hq' : q' = q
      · subst hq'
        rw [Function.update_self, Function.update_self]
        exact hrest
      · rw [Function.update_of_ne hq', Function.update_of_ne hq']
        exact h.queues q'
    · show List.map (Option.map (contentsAt (vals s) p.blocks)) p.refs = _
      rw [hvals]
      exact h.refs
    · rw [hvals]
      exact hbytes

/-- **Freeing** an entry that the call owns. -/
theorem Owned.free (h : Owned p [a] d σ) :
    ∃ p', ev_free a p = some p' ∧ p'.refs = p.refs ∧ Owned p' [] d σ := by
  obtain ⟨w, hstep, hinv⟩ := h.inv.free (List.mem_cons_self ..)
  obtain ⟨s, hfree, hw⟩ := Option.bind_eq_some_iff.mp hstep
  obtain rfl := Option.some.inj hw
  obtain ⟨⟨e, he⟩, hqueue⟩ := h.inv.held a (List.mem_cons_self ..)
  have he : p.events.mem a = some ⟨e, none, none⟩ := he
  have hfree : Queue.ev_free a p.events = some s := hfree
  have hval : vals p.events a = some e := by
    rw [vals, he]
    rfl
  -- the cell of the entry is the only one that is freed
  have hvals : vals s = Function.update (vals p.events) a none := by
    have hne : p.events.mem a ≠ none := by simp [he]
    rw [Queue.ev_free, if_pos hne] at hfree
    obtain rfl := Option.some.inj hfree
    funext c
    by_cases hca : c = a
    · rw [hca]
      simp [vals]
    · simp [vals, Function.update_of_ne hca]
  obtain ⟨hpay, hsame⟩ := h.payloads.release hval
  -- its data is released with it
  have hrelease : releaseData e p = some { p with blocks := e.leaves p.blocks } := by
    obtain ⟨⟨bytes, hbytes, -⟩, hfn⟩ := h.payloads.sound a e hval
    cases hd : e.data with
    | null => simp [releaseData, Event.leaves, hd]
    | inStruct mem => simp [releaseData, Event.leaves, hd]
    | block b =>
      rw [contents_block hd] at hbytes
      simp [releaseData, Event.leaves, hd, hfn b hd, freeBlock, hbytes]
  refine ⟨⟨s, p.refs, e.leaves p.blocks⟩, ?_, rfl, ?_⟩
  · simp only [Revq.ev_free, he, hrelease, hfree, Option.bind_eq_bind, Option.bind_some]
    rfl
  -- the call holds nothing any more
  · have herase : ([a] ++ owned p.refs).erase a = owned p.refs := List.erase_cons_head ..
    have hnot : a ∉ owned p.refs := (List.nodup_cons.mp h.inv.nodup_held).1
    refine h.congr [] ⟨s, p.refs, e.leaves p.blocks⟩ rfl ?_ ?_ fun c hc => ?_
    · rwa [herase] at hinv
    · rw [hvals]
      exact hpay
    · rw [hvals]
      refine hsame c ?_
      rintro rfl
      rcases hc with ⟨q, hc⟩ | hc
      · exact hqueue q hc
      · exact hnot (mem_owned.mpr hc)

/-- A new external pointer takes the entry over. -/
theorem Owned.newRef (h : Owned p [a] d σ)
    (hbytes : contentsAt (vals p.events) p.blocks a = some bytes) :
    Owned { p with refs := p.refs ++ [some a] } [] d { σ with refs := σ.refs ++ [some bytes] } where
  inv := by
    refine inv_perm h.inv ?_
    show (a :: p.refs.filterMap id).Perm ((p.refs ++ [some a]).filterMap id)
    rw [List.filterMap_append]
    exact (List.perm_append_singleton a _).symm
  payloads := h.payloads
  queues := h.queues
  refs := by
    rw [List.map_append, List.map_append, ← h.refs]
    simp [hbytes]

/-- A new external pointer that is null. -/
theorem Owned.nullRef (h : Owned p own d σ) :
    Owned { p with refs := p.refs ++ [none] } own d { σ with refs := σ.refs ++ [none] } where
  inv := by
    show Inv ⟨p.events, own ++ owned (p.refs ++ [none])⟩ d
    rw [owned, List.filterMap_append, List.filterMap_cons_none rfl, List.filterMap_nil,
      List.append_nil]
    exact h.inv
  payloads := h.payloads
  queues := h.queues
  refs := by
    rw [List.map_append, List.map_append, ← h.refs]
    rfl

/-- The entry of an external pointer that becomes null is taken over by the call. -/
theorem Owned.clearRef (h : Owned p [] d σ) {i : ℕ} (hi : p.refs[i]? = some (some a)) :
    ∃ bytes, σ.refs[i]? = some (some bytes) ∧
      contentsAt (vals p.events) p.blocks a = some bytes ∧
      Owned { p with refs := p.refs.set i none } [a] d { σ with refs := σ.refs.set i none } := by
  have hσ := congrArg (fun l => l[i]?) h.refs
  simp only [List.getElem?_map, hi, Option.map_some] at hσ
  obtain ⟨r, hr, hbytes⟩ := Option.map_eq_some_iff.mp hσ.symm
  cases r with
  | none => cases hbytes
  | some bytes =>
    refine ⟨bytes, hr, (Option.some.inj hbytes).symm, inv_perm h.inv (owned_set hi).symm,
      h.payloads, h.queues, ?_⟩
    show List.map _ (p.refs.set i none) = List.map _ (σ.refs.set i none)
    rw [List.map_set, List.map_set, h.refs]
    rfl

/-- An external pointer that is null is so in the ideal, too. -/
theorem Owned.ref_none (h : Owned p own d σ) {i : ℕ} (hi : ∀ a, p.refs[i]? ≠ some (some a)) :
    ∀ bytes, σ.refs[i]? ≠ some (some bytes) := by
  intro bytes hσ
  have hp := congrArg (fun l => l[i]?) h.refs
  simp only [List.getElem?_map, hσ, Option.map_some] at hp
  obtain ⟨r, hr, hbytes⟩ := Option.map_eq_some_iff.mp hp
  cases r with
  | none => cases hbytes
  | some a => exact hi a hr

end Moves

/-! ### The calls -/

section Calls

variable {p : Process} {d : ℕ → List (Addr × Event)} {σ : Ideal} {a : Addr} {q : ℕ}
  {bytes : List UInt8}

/-- Bytes that are copied to a new entry. What is left of it stays zero. -/
theorem exists_filled {len : ℕ} (hlen : bytes.length ≤ len) :
    ∃ data, (Event.new none len none).data.fill bytes = some data ∧ (∀ b, data ≠ .block b) ∧
      ∀ blocks, (⟨data, len, none⟩ : Event).contents blocks
        = some (bytes ++ List.replicate (len - bytes.length) 0) := by
  by_cases hpos : 0 < len
  · refine ⟨.inStruct (bytes ++ List.replicate (len - bytes.length) 0), ?_, by simp, fun _ => rfl⟩
    simp only [Event.new, if_pos hpos, Data.fill, List.length_replicate, if_pos hlen,
      List.drop_replicate]
  · obtain rfl : len = 0 := Nat.eq_zero_of_not_pos hpos
    obtain rfl : bytes = [] := List.length_eq_zero_iff.mp (Nat.le_zero.mp hlen)
    exact ⟨.null, rfl, by simp, fun _ => rfl⟩

/-- Creating an entry and copying to it makes an entry with the bytes. -/
theorem fillData_create {v : Event} {data : Data} (hfill : v.data.fill bytes = some data)
    {s : State Event} (ha : s.mem a = none) :
    ∃ s₁, ev_create a v s = some s₁ ∧
      fillData a bytes s₁ = ev_create a { v with data := data } s := by
  refine ⟨_, if_pos ha, ?_⟩
  simp only [fillData, Function.update_self, hfill, Option.bind_eq_bind, Option.bind_some,
    Function.update_idem, ev_create, if_pos ha]
  rfl

/-- **A new entry on a queue** that holds the bytes itself. -/
theorem Owned.pushNew (h : Owned p [] d σ) (q : ℕ) (ha : p.events.mem a = none) (front : Bool)
    {len : ℕ} (hlen : bytes.length ≤ len) :
    ∃ s₁ s₂ s₃ d', ev_create a (.new none len none) p.events = some s₁ ∧
      fillData a bytes s₁ = some s₂ ∧ ev_push q (some a) front s₂ = some (some a, s₃) ∧
      Owned { p with events := s₃ } [] d'
        (σ.push q front (bytes ++ List.replicate (len - bytes.length) 0)) := by
  obtain ⟨data, hfill, hno, hcontents⟩ := exists_filled hlen
  obtain ⟨s₁, hcreate, hboth⟩ := fillData_create hfill ha
  have hnone : vals p.events a = none := by
    rw [vals, ha]
    rfl
  have hsound : (⟨data, len, none⟩ : Event).Sound p.blocks := by
    refine ⟨⟨_, hcontents p.blocks, ?_⟩, fun b hb => absurd hb (hno b)⟩
    rw [List.length_append, List.length_replicate]
    exact Nat.add_sub_of_le hlen
  have hpay := h.payloads.create hnone hsound hno
  obtain ⟨s₂, hs₂, hvals, h₂⟩ := h.create ha hpay
    fun c hca => by rw [contentsAt, contentsAt, Function.update_of_ne hca]
  have hbytes : contentsAt (vals s₂) p.blocks a
      = some (bytes ++ List.replicate (len - bytes.length) 0) := by
    rw [hvals, contentsAt_update]
    exact hcontents p.blocks
  obtain ⟨s₃, d', hpush, h₃⟩ := h₂.push (q := q) front hbytes
  exact ⟨s₁, s₂, s₃, d', hcreate, hboth.trans hs₂, hpush, h₃⟩

/-- `ev_free` has nothing to do with the external pointers. -/
theorem ev_free_refs (refs : List Ptr) :
    ev_free a { p with refs := refs } = (ev_free a p).map fun p' => { p' with refs := refs } := by
  cases he : p.events.mem a with
  | none => simp [ev_free, he]
  | some n =>
    have hrelease : releaseData n.val { p with refs := refs }
        = (releaseData n.val p).map fun p' => { p' with refs := refs } := by
      unfold releaseData
      split
      · unfold freeBlock
        split <;> rfl
      · rfl
    simp only [ev_free, he, hrelease, Option.bind_eq_bind, Option.bind_some]
    cases hrel : releaseData n.val p with
    | none => rfl
    | some p' =>
      have hevents : p'.events = p.events := by
        unfold releaseData at hrel
        split at hrel
        · unfold freeBlock at hrel
          split at hrel
          · obtain rfl := Option.some.inj hrel
            rfl
          · cases hrel
        · obtain rfl := Option.some.inj hrel
          rfl
      simp only [Option.map_some, Option.bind_some, hevents]
      cases Queue.ev_free a p.events <;> rfl

theorem refs_of_ev_free {p' : Process} (h : ev_free a p = some p') : p'.refs = p.refs := by
  have hsame : ev_free a p = (ev_free a p).map fun p' => { p' with refs := p.refs } :=
    ev_free_refs p.refs
  rw [h, Option.map_some] at hsame
  have hrefs := congrArg Process.refs (Option.some.inj hsame)
  exact hrefs

/-- The finaliser of an external pointer. -/
theorem Owned.finalize (h : Owned p [] d σ) (i : ℕ) :
    ∃ p', eventry_R_free i p = some p' ∧ Owned p' [] d { σ with refs := σ.refs.set i none } := by
  by_cases hi : ∃ e, p.refs[i]? = some (some e)
  · obtain ⟨e, hi⟩ := hi
    obtain ⟨bytes, -, -, h₁⟩ := h.clearRef hi
    obtain ⟨p', hfree, -, h'⟩ := h₁.free
    rw [ev_free_refs] at hfree
    obtain ⟨p₁, hfree₁, rfl⟩ := Option.map_eq_some_iff.mp hfree
    refine ⟨{ p₁ with refs := p.refs.set i none }, ?_, h'⟩
    simp only [eventry_R_free, hi, hfree₁, Option.bind_eq_bind, Option.bind_some,
      refs_of_ev_free hfree₁]
    rfl
  · have hi' : ∀ e, p.refs[i]? ≠ some (some e) := fun e he => hi ⟨e, he⟩
    have hσ := h.ref_none hi'
    have hset : σ.refs.set i none = σ.refs := by
      refine List.ext_getElem? fun j => ?_
      rw [List.getElem?_set]
      split
      · rename_i hij
        subst hij
        split
        · rename_i hlt
          cases hr : σ.refs[i] with
          | none => rw [List.getElem?_eq_getElem hlt, hr]
          | some bytes => exact absurd (by rw [List.getElem?_eq_getElem hlt, hr]) (hσ bytes)
        · rename_i hlt
          exact (List.getElem?_eq_none (Nat.not_lt.mp hlt)).symm
      · rfl
    rw [hset]
    refine ⟨p, ?_, h⟩
    simp only [eventry_R_free]

/-- The payload of a live entry can be copied. -/
theorem payload_eq {fresh : Memory} {e : Event} (hsound : e.Sound p.blocks)
    (hbytes : e.contents p.blocks = some bytes) : payload fresh e p = some bytes := by
  obtain ⟨⟨bytes', hbytes', hlen⟩, -⟩ := hsound
  obtain rfl : bytes = bytes' := Option.some.inj (hbytes.symm.trans hbytes')
  have htake : bytes.take e.len = bytes := by rw [← hlen, List.take_length]
  have hnot : ¬bytes.length < e.len := by rw [hlen]; exact lt_irrefl _
  by_cases hzero : e.len = 0
  · rw [hzero] at hlen
    rw [payload, if_pos hzero, List.length_eq_zero_iff.mp hlen]
  · rw [payload, if_neg hzero]
    cases hd : e.data with
    | null =>
      simp only [Event.contents, hd] at hbytes
      obtain rfl := Option.some.inj hbytes
      exact absurd hlen.symm hzero
    | inStruct mem =>
      simp only [Event.contents, hd] at hbytes
      obtain rfl := Option.some.inj hbytes
      simp only [if_neg hnot, htake]
    | block b =>
      rw [contents_block hd] at hbytes
      simp only [hbytes, Option.bind_eq_bind, Option.bind_some, if_neg hnot, htake]

/-- What `C_evq_pop` does with the entry. -/
theorem Owned.takeEntry (h : Owned p [a] d σ)
    (hbytes : contentsAt (vals p.events) p.blocks a = some bytes) (ref room : Bool)
    (fresh : Memory) :
    ∃ p', takeEntry a ref room fresh p = some
        (if ref then .ref σ.refs.length else if room then .raw bytes else .error, p') ∧
      Owned p' [] d { σ with
        refs := σ.refs ++ [if ref = false ∧ room then none else some bytes] } := by
  have hlen : p.refs.length = σ.refs.length := by
    have hmap := congrArg List.length h.refs
    simpa using hmap
  cases ref with
  | true => exact ⟨_, by simp only [Revq.takeEntry, entry2R, hlen, if_true]; rfl, h.newRef hbytes⟩
  | false =>
    cases room with
    | false =>
      exact ⟨_, by simp only [Revq.takeEntry, entry2R, Bool.false_eq_true, if_false]; rfl,
        h.newRef hbytes⟩
    | true =>
      obtain ⟨e, he, hcontents⟩ := Option.bind_eq_some_iff.mp hbytes
      obtain ⟨n, hn, rfl⟩ := Option.map_eq_some_iff.mp he
      obtain ⟨p', hfree, hrefs, h'⟩ := h.free
      have hpay : payload fresh n.val { p with refs := p.refs ++ [some a] } = some bytes :=
        payload_eq (h.payloads.sound a n.val he) hcontents
      refine ⟨{ p' with refs := p.refs ++ [none] }, ?_, ?_⟩
      · have hset : (p.refs ++ [some a]).set p.refs.length none = p.refs ++ [none] := by
          rw [List.set_append_right _ _ (le_refl _), Nat.sub_self]
          rfl
        simp only [Revq.takeEntry, entry2R, Bool.false_eq_true, if_false, if_true, hn,
          Option.bind_eq_bind, Option.bind_some, hpay, ev_free_refs, hfree, Option.map_some, hset]
        rfl
      · rw [← hrefs]
        exact h'.nullRef

/-- `C_evq_pop` -/
theorem Owned.evq_pop (h : Owned p [] d σ) (q : ℕ) (timer : Option Bool) (ref room : Bool)
    (fresh : Memory) :
    ∃ p' d', C_evq_pop q timer ref room fresh p = some ((σ.pop q timer ref room).1, p') ∧
      Owned p' [] d' (σ.pop q timer ref room).2 := by
  rcases h.pop q with ⟨hσ, hpop, hhead⟩ | ⟨bytes, rest, e, s, d', hσ, hpop, hhead, h', hbytes⟩
  · have hideal : σ.pop q timer ref room
        = (if timer = some false then .waiting else .null, σ) := by
      simp only [Ideal.pop, hσ]
    rw [hideal]
    refine ⟨p, d, ?_, h⟩
    cases timer with
    | none => simp [Revq.C_evq_pop, hpop]
    | some timedOut =>
      cases timedOut with
      | true => simp [Revq.C_evq_pop, ev_pop_wait, hpop]
      | false => simp [Revq.C_evq_pop, ev_pop_wait, hhead]
  · obtain ⟨p', htake, h''⟩ := h'.takeEntry hbytes ref room fresh
    have hcall : Revq.C_evq_pop q timer ref room fresh p
        = Revq.takeEntry e ref room fresh { p with events := s } := by
      cases timer with
      | none => simp [Revq.C_evq_pop, hpop]
      | some timedOut => simp [Revq.C_evq_pop, ev_pop_wait, hpop, hhead]
    rw [hcall, htake]
    refine ⟨p', d', ?_, ?_⟩
    · cases ref <;> cases room <;> simp [Ideal.pop, hσ]
    · have hideal : (σ.pop q timer ref room).2 = ⟨Function.update σ.queues q rest,
          σ.refs ++ [if ref = false ∧ room then none else some bytes]⟩ := by
        cases ref <;> cases room <;> simp [Ideal.pop, hσ]
      rw [hideal]
      exact h''

/-- A request to the work interface. -/
theorem Owned.post (h : Owned p [] d σ) {queue : Option ℕ} {body : Option (Addr × List UInt8)}
    (ha : p.events.mem a = none) (hb : ∀ b ∈ body, p.blocks b.1 = none) :
    ∃ p' d', post queue a body p = some ((σ.perform (.post queue a body)).1, p') ∧
      Owned p' [] d' (σ.perform (.post queue a body)).2 := by
  cases body with
  | none => cases queue <;> exact ⟨p, d, rfl, h⟩
  | some block =>
    obtain ⟨b, bytes⟩ := block
    have hnone : p.blocks b = none := hb (b, bytes) rfl
    -- a request that is turned down takes its body along
    have hback : freeBlock b { p with blocks := Function.update p.blocks b (some bytes) }
        = some p := by
      have hsame : Function.update p.blocks b none = p.blocks := by
        rw [← hnone, Function.update_eq_self]
      simp [freeBlock, hsame]
    cases queue with
    | none =>
      exact ⟨p, d, by simp [Revq.post, postWork, clear_http_request, hback, Ideal.perform], h⟩
    | some q =>
      by_cases hbytes : bytes = []
      · subst hbytes
        exact ⟨p, d, by simp [Revq.post, postWork, clear_http_request, hback, Ideal.perform], h⟩
      · have hlen : ¬bytes.length < 1 := by
          rw [Nat.lt_one_iff, List.length_eq_zero_iff]
          exact hbytes
        have hfree : vals p.events a = none := by
          rw [vals, ha]
          rfl
        let e : Event := .new (some b) bytes.length (some .ev_free_data)
        have hpay : Payloads (Function.update (vals p.events) a (some e))
            (Function.update p.blocks b (some bytes)) :=
          h.payloads.createBlock hfree hnone rfl rfl rfl
        obtain ⟨s, hcreate, hvals, h₁⟩ := h.create ha hpay fun c hca => by
          rw [contentsAt, contentsAt, Function.update_of_ne hca]
          cases hc : vals p.events c with
          | none => rfl
          | some e' =>
            -- no other entry has the new block
            refine contents_update (fun hd => ?_) _
            obtain ⟨⟨bytes', hbytes', -⟩, -⟩ := h.payloads.sound c e' hc
            rw [contents_block hd, hnone] at hbytes'
            cases hbytes'
        have hcontents : contentsAt (vals s) (Function.update p.blocks b (some bytes)) a
            = some bytes := by
          rw [hvals, contentsAt_update]
          exact Function.update_self ..
        obtain ⟨s', d', hpush, h'⟩ := h₁.push (q := q) false hcontents
        refine ⟨⟨s', p.refs, Function.update p.blocks b (some bytes)⟩, d', ?_, ?_⟩
        · have hcreate : ev_create a (.new (some b) bytes.length (some .ev_free_data)) p.events
              = some s := hcreate
          have hpush : ev_push q (some a) false s = some (some a, s') := hpush
          simp only [Revq.post, postWork, if_neg hlen, hcreate, hpush, clear_http_request,
            Ideal.perform, if_neg hbytes, Option.bind_eq_bind, Option.bind_some]
          rfl
        · simp only [Ideal.perform, if_neg hbytes]
          exact h'

/-- The allocator returns memory that is not in use. -/
def Fresh (s : List Outcome × Process) : Act → Prop
  | .pushRaw _ a _ _ | .resolved _ a _ _ => s.2.events.mem a = none
  | .post _ a body => s.2.events.mem a = none ∧ ∀ b ∈ body, s.2.blocks b.1 = none
  | _ => True

/-- **A call** does what it does in the ideal, and keeps the invariant. -/
theorem Owned.perform (h : Owned p [] d σ) {outcomes : List Outcome} {act : Act}
    (hact : Fresh (outcomes, p) act) :
    ∃ p' d', perform p act = some ((σ.perform act).1, p') ∧ Owned p' [] d' (σ.perform act).2 := by
  cases act with
  | pushRaw q a bytes front =>
    -- the block is as long as the data, so nothing is behind it
    obtain ⟨s₁, s₂, s₃, d', hcreate, hfill, hpush, h'⟩ :=
      h.pushNew q hact front (le_refl bytes.length)
    rw [Nat.sub_self, List.replicate_zero, List.append_nil] at h'
    refine ⟨_, d', ?_, h'⟩
    simp only [Revq.perform, pushRaw, hcreate, hfill, hpush, Option.bind_eq_bind,
      Option.bind_some]
    rfl
  -- a reference that R has is given up, and its entry is queued again
  | pushRef q i front =>
    by_cases hi : ∃ e, p.refs[i]? = some (some e)
    · obtain ⟨e, hi⟩ := hi
      obtain ⟨bytes, hσ, hbytes, h₁⟩ := h.clearRef hi
      obtain ⟨s, d', hpush, h'⟩ := h₁.push (q := q) front hbytes
      refine ⟨⟨s, p.refs.set i none, p.blocks⟩, d', ?_, ?_⟩
      · have hpush : ev_push q (some e) front p.events = some (some e, s) := hpush
        simp only [Revq.perform, pushRef, hi, hpush, Option.bind_eq_bind, Option.bind_some,
          Ideal.perform, hσ]
        rfl
      · simp only [Ideal.perform, hσ]
        exact h'
    -- a reference that has been cleared is an error
    · have hi' : ∀ e, p.refs[i]? ≠ some (some e) := fun e he => hi ⟨e, he⟩
      have hσ := h.ref_none hi'
      have hideal : σ.perform (.pushRef q i front) = (.error, σ) := by
        simp only [Ideal.perform]
      rw [hideal]
      refine ⟨p, d, ?_, h⟩
      simp only [Revq.perform, pushRef]
      rfl
  | pop q timer ref room fresh => exact h.evq_pop q timer ref room fresh
  | finalize i =>
    obtain ⟨p', hrun, h'⟩ := h.finalize i
    exact ⟨p', d, by rw [Revq.perform, hrun]; rfl, h'⟩
  | post queue a body => exact h.post hact.1 hact.2
  | resolved q a msg name =>
    -- the block is three bytes longer than what is written
    have hlen : (resolvedBytes msg name).length = name.length + 5 := by
      rw [resolvedBytes, List.length_append, length_le, CString.length_terminated]
      omega
    have hfits : (resolvedBytes msg name).length ≤ name.length + 4 + 4 := by omega
    obtain ⟨s₁, s₂, s₃, d', hcreate, hfill, hpush, h'⟩ := h.pushNew q hact false hfits
    have hrest : name.length + 4 + 4 - (resolvedBytes msg name).length = 3 := by omega
    rw [hrest] at h'
    refine ⟨_, d', ?_, h'⟩
    simp only [Revq.perform, notifyResolved, hcreate, hfill, hpush, Option.bind_eq_bind,
      Option.bind_some]
    rfl

end Calls

/-! ### Sequences of calls -/

/-- The entry is on one queue, once. -/
def OnOneQueue (d : ℕ → List Addr) (a : Addr) : Prop :=
  ∃ q, (d q).count a = 1 ∧ ∀ q', q' ≠ q → a ∉ d q'

/-- **Ownership is linear.** `d q` are the entries on the queue `q`. -/
structure Linear (p : Process) (d : ℕ → List Addr) : Prop where
  /-- The links of each queue lead through its entries, in either direction. -/
  queues : ∀ q, Consistent p.events q (d q)
  /-- A live entry has one owner. -/
  live : ∀ a, p.events.mem a ≠ none →
    (OnOneQueue d a ∧ some a ∉ p.refs) ∨ ((∀ q, a ∉ d q) ∧ p.refs.count (some a) = 1)
  /-- What has been freed has none. -/
  dead : ∀ a, p.events.mem a = none → (∀ q, a ∉ d q) ∧ some a ∉ p.refs
  /-- A block is allocated exactly as long as the entry whose payload it is. -/
  payload : ∀ b, p.blocks b ≠ none ↔ ∃ a n, p.events.mem a = some n ∧ n.val.data = .block b
  /-- It is the payload of that entry only, and the entry knows how to release it. -/
  unique : ∀ a a' n n' b, p.events.mem a = some n → p.events.mem a' = some n' →
    n.val.data = .block b → n'.val.data = .block b →
    a = a' ∧ n.val.free_fn = some .ev_free_data

theorem Owned.linear {p : Process} {d : ℕ → List (Addr × Event)} {σ : Ideal}
    (h : Owned p [] d σ) : Linear p fun q => addrs (d q) where
  queues := h.inv.toRep.consistent
  live a ha := by
    rcases h.inv.all a ha with hheld | ⟨q, hq⟩
    · right
      obtain ⟨-, hfree⟩ := h.inv.held a hheld
      refine ⟨hfree, ?_⟩
      -- the addresses of the references are without repetition
      have hcount : (owned p.refs).count a = 1 :=
        List.count_eq_one_of_mem h.inv.nodup_held hheld
      have hfilter : ∀ refs : List Ptr, refs.count (some a) = (owned refs).count a := by
        intro refs
        induction refs with
        | nil => rfl
        | cons r refs ih =>
          cases r with
          | none => simpa [owned] using ih
          | some c => simpa [owned, List.count_cons] using ih
      rw [hfilter]
      exact hcount
    · left
      refine ⟨⟨q, List.count_eq_one_of_mem (h.inv.nodup q) hq, fun q' hne hq' => ?_⟩, fun hr => ?_⟩
      · exact hne (h.inv.disjoint q' q a hq' hq)
      · exact (h.inv.held a (mem_owned.mpr hr)).2 q hq
  dead a ha := by
    refine ⟨fun q hq => (h.inv.list q).ne_none hq ha, fun hr => ?_⟩
    obtain ⟨⟨v, hv⟩, -⟩ := h.inv.held a (mem_owned.mpr hr)
    have hv : p.events.mem a = some ⟨v, none, none⟩ := hv
    rw [ha] at hv
    cases hv
  payload b := by
    constructor
    · intro hb
      obtain ⟨a, e, he, hd⟩ := h.payloads.owned b hb
      obtain ⟨n, hn, rfl⟩ := Option.map_eq_some_iff.mp he
      exact ⟨a, n, hn, hd⟩
    · rintro ⟨a, n, hn, hd⟩ hb
      have hval : vals p.events a = some n.val := by
        rw [vals, hn]
        rfl
      obtain ⟨⟨bytes, hbytes, -⟩, -⟩ := h.payloads.sound a n.val hval
      rw [contents_block hd, hb] at hbytes
      cases hbytes
  unique a a' n n' b hn hn' hd hd' := by
    have hval : vals p.events a = some n.val := by
      rw [vals, hn]
      rfl
    have hval' : vals p.events a' = some n'.val := by
      rw [vals, hn']
      rfl
    exact ⟨h.payloads.unique a a' n.val n'.val b hval hval' hd hd',
      (h.payloads.sound a n.val hval).2 b hd⟩

theorem ideal_snoc (acts : List Act) (act : Act) :
    ideal (acts ++ [act]) = ((ideal acts).1 ++ [((ideal acts).2.perform act).1],
      ((ideal acts).2.perform act).2) := by
  rw [ideal, List.foldl_append]
  rfl

/-- The invariant holds after every sequence of calls. -/
theorem run_owned {acts : List Act}
    (hacts : Run.Guarded step ([], Process.init) Fresh acts) :
    ∃ p d, Run.run step ([], .init) acts = some ((ideal acts).1, p) ∧
      Owned p [] d (ideal acts).2 := by
  have hstep : ∀ (acts : List Act) (s : List Outcome × Process) (act : Act),
      (s.1 = (ideal acts).1 ∧ ∃ d, Owned s.2 [] d (ideal acts).2) → Fresh s act →
      ∃ s', step s act = some s' ∧
        (s'.1 = (ideal (acts ++ [act])).1 ∧ ∃ d, Owned s'.2 [] d (ideal (acts ++ [act])).2) := by
    rintro acts ⟨outcomes, p⟩ act ⟨houtcomes, d, h⟩ hact
    obtain ⟨p', d', hperform, h'⟩ := h.perform hact
    obtain rfl : outcomes = (ideal acts).1 := houtcomes
    rw [ideal_snoc]
    refine ⟨((ideal acts).1 ++ [((ideal acts).2.perform act).1], p'), ?_, rfl, d', h'⟩
    show (perform p act).map _ = _
    rw [hperform]
    rfl
  obtain ⟨⟨outcomes, p⟩, hrun, houtcomes, d, h⟩ := Run.total_guarded
    (P := fun acts s => s.1 = (ideal acts).1 ∧ ∃ d, Owned s.2 [] d (ideal acts).2)
    ⟨rfl, fun _ => [], .init⟩ hstep hacts
  refine ⟨p, d, ?_, h⟩
  rw [hrun]
  exact congrArg (fun o => some (o, p)) houtcomes

/-- **Every event has one owner.** Every sequence of calls goes through, without freeing
anything twice or using what has been freed. The calls return what they return in the
ideal, so that a popped vector has the bytes that were pushed. Afterwards ownership is
linear. -/
theorem events_owned_once {acts : List Act}
    (hacts : Run.Guarded step ([], Process.init) Fresh acts) :
    ∃ p d, Run.run step ([], .init) acts = some ((ideal acts).1, p) ∧ Linear p d := by
  obtain ⟨p, d, hrun, h⟩ := run_owned hacts
  exact ⟨p, _, hrun, h.linear⟩

/-- A request body that R takes off the queue as an event, puts back and takes off as a
raw vector. -/
def workAndBack : List Act :=
  [.post (some 0) 3 (some (7, [1, 2])), .pop 0 none true true fun _ => 0, .pushRef 0 0 true,
    .pop 0 none false true fun _ => 0]

theorem events_owned_once_work :
    ∃ p d, Run.run step ([], .init) workAndBack
      = some ([.code 200, .ref 0, .done, .raw [1, 2]], p) ∧ Linear p d := by
  apply events_owned_once
  refine Run.Guarded.cons ⟨rfl, fun b hb => ?_⟩ fun s hs => ?_
  · obtain rfl := Option.some.inj hb
    rfl
  · refine Run.Guarded.cons trivial fun s hs => ?_
    refine Run.Guarded.cons trivial fun s hs => ?_
    exact Run.Guarded.cons trivial fun s hs => Run.guarded_nil _

end Revq
end Osrv
