import Osrv.Obj.Robj

/-!
# Local reads

An entry with bytes can be read as a raw vector or as the object that the bytes
stand for. `C_get` makes what it is asked for and keeps it in the entry, without
noting which of the two it was. A later call returns what is kept, whatever it asks
for. Since the deserialiser never returns a raw vector (`RAW_of_restored`), what is
kept is right for calls with one flag only, and reads are as they should be exactly
as long as no call asks for the other.
-/

namespace Osrv
namespace Obj

open Bytes Heap Sfs

/-! ### The deserialiser returns no raw vector -/

/-- Whenever the step succeeds, its result satisfies `P`. -/
def Gives {σ α : Type} (x : Load σ α) (P : α → Prop) : Prop := ∀ m a m', x m = .ok a m' → P a

section Gives

variable {σ α β : Type}

theorem Gives.pure {a : α} {P : α → Prop} (h : P a) : Gives (pure a : Load σ α) P := by
  rintro m _ _ ⟨⟩
  exact h

theorem Gives.error {P : α → Prop} (e : RError) : Gives (rf_error e : Load σ α) P :=
  fun _ _ _ h => nomatch h

theorem Gives.bind {x : Load σ α} {f : α → Load σ β} {P : α → Prop} {Q : β → Prop}
    (hx : Gives x P) (hf : ∀ a, P a → Gives (f a) Q) : Gives (x >>= f) Q := by
  intro m b m'' h
  simp only [Bind.bind, EStateM.bind] at h
  split at h
  · next a m' hxa => exact hf a (hx m a m' hxa) m' b m'' h
  · cases h

/-- A step of which only the last one matters. -/
theorem Gives.after (x : Load σ α) {f : α → Load σ β} {Q : β → Prop}
    (hf : ∀ a, Gives (f a) Q) : Gives (x >>= f) Q :=
  Gives.bind (P := fun _ => True) (fun _ _ _ _ => trivial) fun a _ => hf a

variable {R : Runtime} {api : FetchApi σ} {load : Load σ SEXP}

theorem gives_decodeAtoms {t : AtomType} (ht : t ≠ .RAWSXP) (len : ℕ) :
    Gives (decodeAtoms R api t len) fun v => RAW v = none := by
  refine Gives.after _ fun _ => Gives.after _ fun bs => Gives.pure ?_
  cases t <;> first | rfl | exact absurd rfl ht

theorem gives_decodeSwitch (ts len : ℕ) :
    Gives (decodeSwitch R api load ts len) fun v => RAW v = none := by
  unfold decodeSwitch
  split
  · exact Gives.pure rfl
  · exact gives_decodeAtoms (by decide) len
  · exact gives_decodeAtoms (by decide) len
  · exact gives_decodeAtoms (by decide) len
  · exact gives_decodeAtoms (by decide) len
  · split
    · exact Gives.pure rfl
    · refine Gives.after _ fun s => ?_
      unfold install
      split
      · exact Gives.error _
      · split
        · exact Gives.error _
        · exact Gives.pure rfl
  · exact Gives.after _ fun _ => Gives.after _ fun _ => Gives.pure rfl
  · exact Gives.after _ fun _ => Gives.after _ fun _ => Gives.pure rfl
  · exact Gives.after _ fun _ => Gives.pure rfl
  · exact Gives.after _ fun _ => Gives.after _ fun _ => Gives.after _ fun _ => Gives.pure rfl
  · refine Gives.after _ fun c => Gives.pure ?_
    cases c <;> rfl
  · refine Gives.after _ fun c => Gives.pure ?_
    cases c <;> rfl
  · refine Gives.after _ fun c => Gives.pure ?_
    cases c <;> rfl
  · split
    · exact Gives.pure rfl
    · split
      · exact Gives.pure rfl
      · split
        · exact Gives.pure rfl
        · exact Gives.after _ fun _ => Gives.pure rfl
  · exact Gives.error _

theorem gives_setAttrib {res : SEXP} (hres : RAW res = none) (attr : Cells) :
    Gives (setAttrib res attr : Load σ SEXP) fun v => RAW v = none := by
  unfold setAttrib
  split
  · next a o s u =>
    refine Gives.pure ?_
    cases u with
    | atoms t xs =>
      cases t <;> first | rfl | exact hres
    | _ => rfl
  · exact Gives.after _ fun _ => Gives.pure hres

theorem gives_sfs_load (n : ℕ) : Gives (sfs_load R api n) fun v => RAW v = none := by
  cases n with
  | zero => exact fun _ _ _ h => nomatch h
  | succ n =>
    refine Gives.after _ fun hdr => Gives.after _ fun p => ?_
    have hswitch : Gives (decode_one R api (sfs_load R api n) p.2) fun v => RAW v = none :=
      gives_decodeSwitch _ _
    refine hswitch.bind fun res hres => ?_
    split
    · exact gives_setAttrib hres _
    · exact Gives.pure hres

end Gives

/-- **What is restored** from bytes is no raw vector. -/
theorem RAW_of_restored {R : Runtime} {bytes dec_buf : List UInt8}
    {st : Decoder (List UInt8)} {v : SEXP} (h : C_mem_restore R bytes dec_buf = .ok v st) :
    RAW v = none :=
  gives_sfs_load _ _ _ _ h

theorem RAW_rawVector (bs : List UInt8) : RAW (rawVector bs) = some bs := by
  show some (unblocks (blocks 1 bs.length bs)) = some bs
  rw [unblocks_blocks (Nat.mul_one _).symm]

/-! ### Puts and reads -/

/-- A put of bytes: a raw vector from R, or the payload of a request. -/
inductive Put
  | local (v : SEXP) (bytes : List UInt8) (raw : RAW v = some bytes)
  | remote (bytes : List UInt8)

def Put.bytes : Put → List UInt8
  | .local _ bytes _ => bytes
  | .remote bytes => bytes

/-- The value that the entry has from the start. -/
def Put.value : Put → Option SEXP
  | .local v _ _ => some v
  | .remote _ => none

def Put.apply (key : CString) (s : Objects) : Put → Objects
  | .local v _ _ => C_put key v false s
  | .remote bytes => obj_add key none (some bytes) bytes.length s

/-- A call of `C_get` that leaves the entry in the store. -/
structure Call where
  session : RSession
  sfs : Bool

/-- Calls in a row on one key, with what they return. -/
def gets (key : CString) : List Call → Objects → Option (List (Option SEXP) × Objects)
  | [], s => some ([], s)
  | c :: calls, s => do
    let (v, s) ← C_get c.session key c.sfs false s
    let (vs, s) ← gets key calls s
    some (v :: vs, s)

/-! ### What a call should return -/

/-- The value that a call makes of bytes for which there is none yet. -/
def Call.makes (c : Call) (bytes : List UInt8) : Option SEXP :=
  if c.sfs then
    match C_mem_restore c.session.runtime bytes c.session.dec_buf with
    | .ok v _ => some v
    | .error _ _ => none
  else if c.session.runtime.allocVector .RAWSXP bytes.length then some (rawVector bytes)
  else none

/-- Whether a value is what bytes are to be read as: a raw vector of them, or an object
that they are restored as. -/
def IsResult (bytes : List UInt8) (sfs : Bool) (v : SEXP) : Prop :=
  if sfs then ∃ R dec_buf st, C_mem_restore R bytes dec_buf = .ok v st else RAW v = some bytes

/-- **The law.** A call returns what it asks for, or fails if it cannot be made. -/
def Lawful (bytes : List UInt8) (c : Call) : Option SEXP → Prop
  | some v => IsResult bytes c.sfs v
  | none => c.makes bytes = none

/-- No call asks for something else than what is kept: a raw vector from R is kept from the
start, and of other bytes the first value that can be made. -/
def Put.Uniform (calls : List Call) : Put → Prop
  | .local _ _ _ => ∀ c ∈ calls, c.sfs = false
  | .remote bytes => calls.Pairwise fun c c' => c.makes bytes ≠ none → c'.sfs = c.sfs

theorem isResult_makes {bytes : List UInt8} {c : Call} {v : SEXP} (h : c.makes bytes = some v) :
    IsResult bytes c.sfs v := by
  rw [Call.makes] at h
  rw [IsResult]
  split at h
  · next hsfs =>
    rw [if_pos hsfs]
    split at h
    · next v' st hrestore =>
      obtain rfl := Option.some.inj h
      exact ⟨_, _, _, hrestore⟩
    · cases h
  · next hsfs =>
    rw [if_neg hsfs]
    split at h
    · obtain rfl := Option.some.inj h
      exact RAW_rawVector bytes
    · cases h

/-- **A value is the result of calls with one flag only.** -/
theorem IsResult.unique {bytes : List UInt8} {b b' : Bool} {v : SEXP} (h : IsResult bytes b v)
    (h' : IsResult bytes b' v) : b' = b := by
  have hne : ¬ (IsResult bytes true v ∧ IsResult bytes false v) := by
    rintro ⟨⟨R, dec_buf, st, hrestore⟩, hraw⟩
    change RAW v = some bytes at hraw
    rw [RAW_of_restored hrestore] at hraw
    cases hraw
  cases b with
  | true =>
    cases b' with
    | true => rfl
    | false => exact absurd ⟨h, h'⟩ hne
  | false =>
    cases b' with
    | true => exact absurd ⟨h', h⟩ hne
    | false => rfl

/-! ### What the calls return -/

/-- What calls return, from what is kept. -/
def answers (bytes : List UInt8) : Option SEXP → List Call → List (Option SEXP)
  | _, [] => []
  | kept, c :: calls =>
    let v := kept.or (c.makes bytes)
    v :: answers bytes v calls

/-- The value that is kept behind them. -/
def keeps (bytes : List UInt8) (kept : Option SEXP) (calls : List Call) : Option SEXP :=
  calls.foldl (fun kept c => kept.or (c.makes bytes)) kept

theorem materialise_bytes (c : Call) (bytes : List UInt8) :
    materialise c.session c.sfs bytes.length (some bytes) = some (c.makes bytes) := by
  rw [materialise, Call.makes]
  have hlt : ¬ bytes.length < bytes.length := lt_irrefl _
  simp only [if_neg hlt, List.take_length]
  split
  · cases C_mem_restore c.session.runtime bytes c.session.dec_buf <;> rfl
  · split <;> rfl

section Run

variable {s : Objects} {xs ys : Entries (Option (List UInt8)) SEXP} {key : CString} {a : Addr}
  {bytes : List UInt8}

/-- The entry of a put is the first one. -/
theorem Rep.put (h : Rep s xs ys) (key : CString) (p : Put) : Rep (p.apply key s)
    ((s.heap.top, ⟨p.bytes.length, some p.bytes, p.value, key⟩) :: xs) ys := by
  cases p with
  | «local» v bytes raw =>
    have hput : C_put key v false s = Obj.obj_add key (some v) (some bytes) bytes.length s := by
      rw [C_put, if_neg (by decide), raw]
    show Rep (C_put key v false s) _ _
    rw [hput]
    exact h.obj_add key (some v) (some bytes) bytes.length
  | remote bytes => exact h.obj_add key none (some bytes) bytes.length

/-- **One call** on the entry, with what it keeps. -/
theorem Rep.get {kept : Option SEXP}
    (h : Rep s ((a, ⟨bytes.length, some bytes, kept, key⟩) :: xs) ys) (c : Call) :
    ∃ s', C_get c.session key c.sfs false s = some (kept.or (c.makes bytes), s') ∧
      Rep s' ((a, ⟨bytes.length, some bytes, kept.or (c.makes bytes), key⟩) :: xs) ys := by
  have hfind : obj_get key false s = some (some a, s) := by
    rw [h.obj_get_find, List.find?_cons_of_pos (by simp [hasKey])]
    rfl
  obtain ⟨-, next, hcell, -⟩ := h.root
  have hload : s.heap.load a = some ⟨⟨bytes.length, some bytes, kept, key⟩, next⟩ := hcell
  cases kept with
  | some v =>
    refine ⟨s, ?_, h⟩
    simp only [C_get, hfind, hload, Option.bind_eq_bind, Option.bind_some, Option.some_or]
    rfl
  | none =>
    rw [Option.none_or]
    have hmake := materialise_bytes c bytes
    cases hv : c.makes bytes with
    | none =>
      refine ⟨s, ?_, h⟩
      rw [hv] at hmake
      simp only [C_get, hfind, hload, hmake, Option.bind_eq_bind, Option.bind_some]
      rfl
    | some v =>
      rw [hv] at hmake
      have hnil : Rep s ([] ++ (a, ⟨bytes.length, some bytes, none, key⟩) :: xs) ys := h
      obtain ⟨s', hkeep, hrep⟩ := hnil.keep hcell v
      refine ⟨s', ?_, hrep⟩
      simp only [C_get, hfind, hload, hmake, hkeep, Option.bind_eq_bind, Option.bind_some,
        Bool.false_eq_true, if_false]
      rfl

/-- **Calls in a row** on the entry. -/
theorem Rep.gets {kept : Option SEXP} (calls : List Call)
    (h : Rep s ((a, ⟨bytes.length, some bytes, kept, key⟩) :: xs) ys) :
    ∃ s', gets key calls s = some (answers bytes kept calls, s') ∧
      Rep s' ((a, ⟨bytes.length, some bytes, keeps bytes kept calls, key⟩) :: xs) ys := by
  induction calls generalizing s kept with
  | nil => exact ⟨s, rfl, h⟩
  | cons c calls ih =>
    obtain ⟨s₁, hget, h₁⟩ := h.get c
    obtain ⟨s', hrun, h'⟩ := ih h₁
    refine ⟨s', ?_, h'⟩
    simp only [Obj.gets, hget, hrun, Option.bind_eq_bind, Option.bind_some]
    rfl

end Run

/-! ### When the law holds -/

section Law

variable {bytes : List UInt8}

/-- With a value kept, calls are lawful if they ask for it. -/
theorem lawful_kept_iff {b : Bool} {v : SEXP} (h : IsResult bytes b v) (calls : List Call) :
    List.Forall₂ (Lawful bytes) calls (answers bytes (some v) calls) ↔
      ∀ c ∈ calls, c.sfs = b := by
  induction calls with
  | nil => exact ⟨fun _ c hc => absurd hc List.not_mem_nil, fun _ => .nil⟩
  | cons c calls ih =>
    show List.Forall₂ (Lawful bytes) (c :: calls) (some v :: answers bytes (some v) calls) ↔ _
    rw [List.forall₂_cons, ih, List.forall_mem_cons]
    refine and_congr_left' ⟨fun hlaw => h.unique hlaw, fun hb => ?_⟩
    show IsResult bytes c.sfs v
    rwa [hb]

/-- With no value kept, they are lawful if those behind the first one that can make it ask
for the same. -/
theorem lawful_none_iff (calls : List Call) :
    List.Forall₂ (Lawful bytes) calls (answers bytes none calls) ↔
      calls.Pairwise fun c c' => c.makes bytes ≠ none → c'.sfs = c.sfs := by
  induction calls with
  | nil => exact ⟨fun _ => .nil, fun _ => .nil⟩
  | cons c calls ih =>
    show List.Forall₂ (Lawful bytes) (c :: calls)
      (c.makes bytes :: answers bytes (c.makes bytes) calls) ↔ _
    rw [List.forall₂_cons, List.pairwise_cons]
    cases hv : c.makes bytes with
    | none =>
      rw [ih]
      refine and_congr_left' ⟨fun _ c' _ hne => absurd rfl hne, fun _ => hv⟩
    | some v =>
      have hresult := isResult_makes hv
      rw [lawful_kept_iff hresult]
      constructor
      · rintro ⟨-, hall⟩
        refine ⟨fun c' hc' _ => hall c' hc', ?_⟩
        rw [List.pairwise_iff_forall_sublist]
        intro c₁ c₂ hsub _
        rw [hall c₁ (hsub.subset (by simp)), hall c₂ (hsub.subset (by simp))]
      · rintro ⟨hall, -⟩
        exact ⟨hresult, fun c' hc' => hall c' hc' (by simp)⟩

theorem lawful_iff (p : Put) (calls : List Call) :
    List.Forall₂ (Lawful p.bytes) calls (answers p.bytes p.value calls) ↔ p.Uniform calls := by
  cases p with
  | «local» v bytes raw => exact lawful_kept_iff (b := false) raw calls
  | remote bytes => exact lawful_none_iff calls

end Law

/-- **Local reads** are lawful exactly if no call asks for something else than what is kept.
The bytes that remote clients are served stay as they are in any case. -/
theorem local_reads_lawful_iff {s : Objects} {xs ys : Entries (Option (List UInt8)) SEXP}
    (h : Rep s xs ys) (key : CString) (p : Put) (calls : List Call) :
    ∃ outcomes s', gets key calls (p.apply key s) = some (outcomes, s') ∧
      (∃ kept, lookup key s' = some (some ⟨p.bytes.length, some p.bytes, kept, key⟩)) ∧
      (List.Forall₂ (Lawful p.bytes) calls outcomes ↔ p.Uniform calls) := by
  obtain ⟨s', hrun, h'⟩ := (h.put key p).gets calls
  refine ⟨_, s', hrun, ⟨keeps p.bytes p.value calls, ?_⟩, lawful_iff p calls⟩
  rw [lookup_of_rep h']
  simp [ofKey]

/-- The bytes that `R_NilValue` is serialised to, read first as they are and then as an
object. -/
def nullBytes : List UInt8 := List.replicate 8 0

def session : RSession := ⟨⟨fun _ _ => true, fun _ _ => none⟩, [], fun _ => 0⟩

def rawThenObject : List Call := [⟨session, false⟩, ⟨session, true⟩]

theorem local_reads_lawful_null :
    ∃ outcomes s', gets ⟨[107], by decide⟩ rawThenObject
        (Put.apply ⟨[107], by decide⟩ Store.init (.remote nullBytes)) = some (outcomes, s') ∧
      (∃ kept, lookup ⟨[107], by decide⟩ s'
        = some (some ⟨8, some nullBytes, kept, ⟨[107], by decide⟩⟩)) ∧
      (List.Forall₂ (Lawful nullBytes) rawThenObject outcomes ↔
        (Put.remote nullBytes).Uniform rawThenObject) :=
  local_reads_lawful_iff Rep.init _ (.remote nullBytes) rawThenObject

/-- The object is asked for, and the raw vector is returned. -/
theorem object_read_as_raw :
    C_mem_restore session.runtime nullBytes session.dec_buf
        = .ok .NULL ⟨[], session.dec_buf, 0, [], []⟩ ∧
    ∃ s', gets ⟨[107], by decide⟩ rawThenObject
        (Put.apply ⟨[107], by decide⟩ Store.init (.remote nullBytes))
        = some ([some (rawVector nullBytes), some (rawVector nullBytes)], s') ∧
      ¬ List.Forall₂ (Lawful nullBytes) rawThenObject
        [some (rawVector nullBytes), some (rawVector nullBytes)] := by
  refine ⟨rfl, ?_⟩
  obtain ⟨s', hrun, -⟩ :=
    (Rep.init.put ⟨[107], by decide⟩ (.remote nullBytes)).gets rawThenObject
  refine ⟨s', hrun, fun hlaw => ?_⟩
  rw [rawThenObject, List.forall₂_cons, List.forall₂_cons] at hlaw
  have hraw : IsResult nullBytes false (rawVector nullBytes) := RAW_rawVector nullBytes
  exact absurd (hraw.unique hlaw.2.1) (by decide)

end Obj
end Osrv
