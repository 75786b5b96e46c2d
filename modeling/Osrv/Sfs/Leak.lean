import Osrv.Sfs.Loaded
import Osrv.Sfs.Scratch
import Osrv.Sfs.Transport

/-!
# What a load reveals of earlier ones

A tree is accepted when its evaluation does not fail for a reason that lies in the tree
or in the memory available (`Tree.Accepted`, `Available`). An evaluation that succeeds
is of an accepted tree (`Tree.uses`), and an accepted tree is evaluated with success as
soon as the unknown texts are names (`Tree.builds`).

`SEXP.textSize` adds up the lengths of all texts in a value. Over a buffer of zeros an
unsettled text is shorter than over a buffer of letters, so the two loads differ. With
the result on settled texts this gives the streams on which a load depends on nothing
but the stream (`load_depends_on_stream_iff`).
-/

namespace Osrv
namespace Sfs

open Bytes Lib

/-! ### Accepted trees -/

/-- The record of a string, with or without attributes. -/
def Tree.isString : Tree → Bool
  | .plain (.string _) | .attributed _ (.string _) => true
  | _ => false

/-- The name does not end before it begins. -/
def Text.Named : Text → Prop
  | .short bytes => bytes.head? ≠ some 0
  | .long _ => True

mutual

/-- R allocates the vectors, a symbol has a name, and the elements of a character
vector are strings. -/
def Tree.Accepted (A : SexpType → ℕ → Bool) : Tree → Prop
  | .plain b => b.Accepted A
  | .attributed attr b => attr.Accepted A ∧ b.Accepted A

def Body.Accepted (A : SexpType → ℕ → Bool) : Body → Prop
  | .atoms t len _ => A t.type len = true
  | .symbol text => text.Named
  | .generic elts => A .VECSXP elts.length = true ∧ elts.Accepted A
  | .strings elts => A .STRSXP elts.length = true ∧ elts.AcceptedStrings A
  | .closure _ f b e => f.Accepted A ∧ b.Accepted A ∧ e.Accepted A
  | .cells _ c => c.Accepted A
  | _ => True

def Trees.Accepted (A : SexpType → ℕ → Bool) : Trees → Prop
  | .nil => True
  | .cons t ts => t.Accepted A ∧ ts.Accepted A

def Trees.AcceptedStrings (A : SexpType → ℕ → Bool) : Trees → Prop
  | .nil => True
  | .cons t ts => t.Accepted A ∧ t.isString = true ∧ ts.AcceptedStrings A

def Pairs.Accepted (A : SexpType → ℕ → Bool) : Pairs → Prop
  | .nil => True
  | .cons tag val c => tag.Accepted A ∧ val.Accepted A ∧ c.Accepted A

end

/-- The number of texts that are taken from fresh memory. -/
def longs : List Text → ℕ
  | [] => 0
  | .short _ :: ts => longs ts
  | .long _ :: ts => longs ts + 1

/-- `malloc` succeeds for these texts, after `k` earlier calls. -/
def Available (M : ℕ → ℕ → Bool) : ℕ → List Text → Prop
  | _, [] => True
  | k, .short _ :: ts => Available M k ts
  | k, .long len :: ts => M k len = true ∧ Available M (k + 1) ts

theorem longs_append (ts us : List Text) : longs (ts ++ us) = longs ts + longs us := by
  induction ts with
  | nil => exact (Nat.zero_add _).symm
  | cons t ts ih =>
    cases t with
    | short bytes => exact ih
    | long len =>
      show longs (ts ++ us) + 1 = longs ts + 1 + longs us
      omega

theorem available_append {M : ℕ → ℕ → Bool} {k : ℕ} {ts us : List Text} :
    Available M k (ts ++ us) ↔ Available M k ts ∧ Available M (k + longs ts) us := by
  induction ts generalizing k with
  | nil => exact (and_iff_right trivial).symm
  | cons t ts ih =>
    cases t with
    | short bytes => exact ih
    | long len =>
      show M k len = true ∧ Available M (k + 1) (ts ++ us) ↔ (_ ∧ _) ∧ _
      rw [ih, and_assoc, Nat.add_assoc, Nat.add_comm 1]
      rfl

/-- What a runtime offers: which vectors R allocates, and which calls of `malloc` return
memory. -/
structure Runtime.Offers (R : Runtime) (A : SexpType → ℕ → Bool) (M : ℕ → ℕ → Bool) : Prop where
  allocVector : R.allocVector = A
  malloc : ∀ k len, (R.malloc k len).isSome = M k len

/-! ### A successful evaluation -/

section Uses

variable {R : Runtime} {A : SexpType → ℕ → Bool} {M : ℕ → ℕ → Bool} {α β : Type}

/-- Whenever the step succeeds, memory was available for the texts, and the result
satisfies `P`. -/
def Uses (M : ℕ → ℕ → Bool) (x : Load Unit α) (ts : List Text) (P : α → Prop) : Prop :=
  ∀ m a m', x m = .ok a m' →
    Available M m.mallocs ts ∧ m'.mallocs = m.mallocs + longs ts ∧ P a

theorem Uses.pure {a : α} {P : α → Prop} (h : P a) : Uses M (pure a) [] P := by
  rintro m _ _ ⟨⟩
  exact ⟨trivial, rfl, h⟩

theorem Uses.error {ts : List Text} {P : α → Prop} (e : RError) :
    Uses M (rf_error e : Load Unit α) ts P := fun _ _ _ h => nomatch h

theorem Uses.bind {x : Load Unit α} {f : α → Load Unit β} {ts us : List Text} {P : α → Prop}
    {Q : β → Prop} (hx : Uses M x ts P) (hf : ∀ a, P a → Uses M (f a) us Q) :
    Uses M (x >>= f) (ts ++ us) Q := by
  intro m b m'' h
  simp only [Bind.bind, EStateM.bind] at h
  split at h
  · next a m' hxa =>
    obtain ⟨hav, hm', hP⟩ := hx m a m' hxa
    obtain ⟨hav', hm'', hQ⟩ := hf a hP m' b m'' h
    refine ⟨available_append.mpr ⟨hav, by rwa [← hm']⟩, ?_, hQ⟩
    rw [hm'', hm', longs_append, Nat.add_assoc]
  · cases h

/-- A last step that uses no text. -/
theorem Uses.bind_last {x : Load Unit α} {f : α → Load Unit β} {ts : List Text} {P : α → Prop}
    {Q : β → Prop} (hx : Uses M x ts P) (hf : ∀ a, P a → Uses M (f a) [] Q) :
    Uses M (x >>= f) ts Q := by
  have h := hx.bind hf
  rwa [List.append_nil] at h

theorem uses_allocVector (hR : R.Offers A M) (t : SexpType) (len : ℕ) :
    Uses M (allocVector R t len : Load Unit Unit) [] fun _ => A t len = true := by
  unfold allocVector
  rw [hR.allocVector]
  split
  · next h => exact Uses.pure h
  · exact Uses.error _

theorem uses_setAttrib (res : SEXP) (attr : Cells) :
    Uses M (setAttrib res attr : Load Unit SEXP) []
      fun v => (∃ c, v = .charsxp c) ↔ ∃ c, res = .charsxp c := by
  unfold setAttrib
  split
  · exact Uses.pure (by simp)
  · rintro m _ _ ⟨⟩
    exact ⟨trivial, rfl, Iff.rfl⟩

theorem uses_environment (len : ℕ) :
    Uses M (evalEnvironment len : Load Unit SEXP) [] fun v => ¬ ∃ c, v = .charsxp c := by
  unfold evalEnvironment
  split
  · exact Uses.pure (by simp)
  · split
    · exact Uses.pure (by simp)
    · split
      · exact Uses.pure (by simp)
      · rintro m _ _ ⟨⟩
        exact ⟨trivial, rfl, by simp⟩

theorem uses_text (hR : R.Offers A M) (noMemory : ℕ → RError) (text : Text) :
    Uses M (text.eval R noMemory) [text]
      fun s => ∀ bytes, text = .short bytes → bytes.head? = some 0 → s.length = 0 := by
  cases text with
  | short bytes =>
    rintro m _ _ ⟨⟩
    refine ⟨trivial, rfl, ?_⟩
    rintro _ ⟨⟩ hzero
    cases bytes with
    | nil => cases hzero
    | cons b bs =>
      obtain rfl : b = 0 := Option.some.inj hzero
      rfl
  | long len =>
    intro m s m' h
    have hM := hR.malloc m.mallocs len
    simp only [Text.eval, Bind.bind, EStateM.bind, malloc] at h
    cases hmalloc : R.malloc m.mallocs len with
    | none =>
      rw [hmalloc] at h
      cases h
    | some buf =>
      rw [hmalloc] at h hM
      cases h
      exact ⟨⟨hM.symm, trivial⟩, rfl, fun _ h => nomatch h⟩

theorem Datum.fresh_ne_charsxp (u : Datum) : ¬ ∃ c, u.fresh = .charsxp c := by
  rintro ⟨c, h⟩
  cases h

theorem Cells.toSEXP_ne_charsxp (c : Cells) : ¬ ∃ x, c.toSEXP = .charsxp x := by
  rintro ⟨x, h⟩
  cases c <;> cases h

/-- What a successful evaluation says of a tree. -/
def Tree.Evaluated (A : SexpType → ℕ → Bool) (t : Tree) (v : SEXP) : Prop :=
  t.Accepted A ∧ ((∃ c, v = .charsxp c) ↔ t.isString = true)

/-- For the records that are no strings. -/
theorem Tree.Evaluated.of_ne {t : Tree} {v : SEXP} (ha : t.Accepted A)
    (ht : t.isString = false) (hv : ¬ ∃ c, v = .charsxp c) : t.Evaluated A v :=
  ⟨ha, fun h => absurd h hv, fun h => absurd h (by rw [ht]; exact Bool.false_ne_true)⟩

mutual

/-- **A tree that is evaluated with success** is accepted, and memory was available for
its texts. -/
theorem Tree.uses (hR : R.Offers A M) : ∀ t : Tree,
    Uses M (t.eval R) t.texts (t.Evaluated A)
  | .plain b => Body.uses hR b
  | .attributed attr b => by
    refine (Pairs.uses hR attr false).bind fun a hattr => ?_
    refine (Body.uses hR b).bind_last fun res hres => ?_
    have hstring : (Tree.attributed attr b).isString = (Tree.plain b).isString := by
      cases b <;> rfl
    split
    · intro m v m' hv
      obtain ⟨hav, hm, hiff⟩ := uses_setAttrib (M := M) res a m v m' hv
      refine ⟨hav, hm, ⟨hattr, hres.1⟩, ?_⟩
      rw [hiff, hstring]
      exact hres.2
    · refine Uses.pure ⟨⟨hattr, hres.1⟩, ?_⟩
      rw [hstring]
      exact hres.2

theorem Body.uses (hR : R.Offers A M) : ∀ b : Body,
    Uses M (b.eval R) b.texts ((Tree.plain b).Evaluated A)
  | .null _ => Uses.pure (.of_ne trivial rfl (by simp))
  | .atoms t len bytes => (uses_allocVector hR t.type len).bind_last fun _ hA =>
      Uses.pure (.of_ne hA rfl (Datum.fresh_ne_charsxp _))
  | .missingArg => Uses.pure (.of_ne trivial rfl (by simp [R_MissingArg]))
  | .symbol text => by
    refine (uses_text hR _ text).bind_last fun s hs => ?_
    unfold install
    split
    · exact Uses.error _
    · next h0 =>
      split
      · exact Uses.error _
      · refine Uses.pure (.of_ne ?_ rfl (by simp))
        -- the name has a first byte
        cases text with
        | short bytes => exact fun hzero => h0 (hs bytes rfl hzero)
        | long len => exact trivial
  | .string text => by
    refine (uses_text hR _ text).bind_last fun s _ => Uses.pure ⟨trivial, ?_⟩
    exact iff_of_true ⟨_, rfl⟩ rfl
  | .generic elts => by
    refine (uses_allocVector hR .VECSXP elts.length).bind fun _ hA => ?_
    exact (Trees.uses hR elts).bind_last fun xs hxs =>
      Uses.pure (.of_ne ⟨hA, hxs⟩ rfl (Datum.fresh_ne_charsxp _))
  | .strings elts => by
    refine (uses_allocVector hR .STRSXP elts.length).bind fun _ hA => ?_
    exact (Trees.uses_strings hR elts).bind_last fun xs hxs =>
      Uses.pure (.of_ne ⟨hA, hxs⟩ rfl (Datum.fresh_ne_charsxp _))
  | .closure _ f b e => by
    refine (Tree.uses hR f).bind fun _ hf => (Tree.uses hR b).bind fun _ hb => ?_
    exact (Tree.uses hR e).bind_last fun _ he =>
      Uses.pure (.of_ne ⟨hf.1, hb.1, he.1⟩ rfl (Datum.fresh_ne_charsxp _))
  | .cells t c => (Pairs.uses hR c (t == .LANGSXP)).bind_last fun c' hc =>
      Uses.pure (.of_ne hc rfl (Cells.toSEXP_ne_charsxp c'))
  | .environment len => by
    intro m v m' hv
    obtain ⟨hav, hm, hne⟩ := uses_environment (M := M) len m v m' hv
    exact ⟨hav, hm, .of_ne trivial rfl hne⟩

theorem Trees.uses (hR : R.Offers A M) : ∀ ts : Trees,
    Uses M (ts.eval R) ts.texts fun _ => ts.Accepted A
  | .nil => Uses.pure trivial
  | .cons t ts => by
    refine (Tree.uses hR t).bind fun _ ht => ?_
    exact (Trees.uses hR ts).bind_last fun _ hts => Uses.pure ⟨ht.1, hts⟩

theorem Trees.uses_strings (hR : R.Offers A M) : ∀ ts : Trees,
    Uses M (ts.evalStrings R) ts.texts fun _ => ts.AcceptedStrings A
  | .nil => Uses.pure trivial
  | .cons t ts => by
    refine (Tree.uses hR t).bind fun x ht => ?_
    cases x with
    | charsxp c =>
      exact (Trees.uses_strings hR ts).bind_last fun _ hts =>
        Uses.pure ⟨ht.1, ht.2.mp ⟨c, rfl⟩, hts⟩
    | _ => exact Uses.error _

theorem Pairs.uses (hR : R.Offers A M) : ∀ (c : Pairs) (lang : Bool),
    Uses M (c.eval R lang) c.texts fun _ => c.Accepted A
  | .nil, _ => Uses.pure trivial
  | .cons tag val c, lang => by
    refine (Tree.uses hR tag).bind fun _ htag => (Tree.uses hR val).bind fun _ hval => ?_
    exact (Pairs.uses hR c lang).bind_last fun _ hc => Uses.pure ⟨htag.1, hval.1, hc⟩

end

end Uses

/-! ### The amount of text in a value -/

mutual

/-- The number of bytes in the texts of a value. -/
def SEXP.textSize : SEXP → ℕ
  | .symbol p => p.length
  | .charsxp c => (CHAR c).length
  | .object a _ _ u => a.textSize + u.textSize
  | _ => 0

def Datum.textSize : Datum → ℕ
  | .strings xs => (xs.map fun c => (CHAR c).length).sum
  | .generic xs => textSizeElts xs
  | .cons _ tag car r => tag.textSize + car.textSize + r.textSize
  | .closure f _ b e => f.textSize + b.textSize + e.textSize
  | _ => 0

def Cells.textSize : Cells → ℕ
  | .nil => 0
  | .cons _ tag car r => tag.textSize + car.textSize + r.textSize

def textSizeElts : List SEXP → ℕ
  | [] => 0
  | x :: xs => x.textSize + textSizeElts xs

end

/-- The text in the attributes of shared objects. -/
def sharedSize (l : List (SEXP × Cells)) : ℕ := (l.map fun p => p.2.textSize).sum

theorem textSize_fresh (u : Datum) : u.fresh.textSize = u.textSize := by
  simp [Datum.fresh, SEXP.textSize, Cells.textSize]

theorem textSize_toSEXP (c : Cells) : c.toSEXP.textSize = c.textSize := by
  cases c with
  | nil => rfl
  | cons lang tag car r =>
    unfold Cells.toSEXP
    rw [textSize_fresh, Datum.textSize, Cells.textSize]

/-- An object without attributes, or one that R shares. -/
def SEXP.Bare : SEXP → Prop
  | .object a _ _ _ => a = .nil
  | _ => True

theorem Cells.bare_toSEXP (c : Cells) : c.toSEXP.Bare := by
  cases c with
  | nil => trivial
  | cons lang tag car r => exact rfl

/-! ### Evaluation over chosen memory -/

/-- The text in the texts of a tree, with `fill` behind the known front of `dec_buf` and
`block` in fresh memory. -/
def total (fill block : List UInt8) : List UInt8 → List Text → ℕ
  | _, [] => 0
  | front, .short bytes :: ts =>
    (cstr (overlay bytes front ++ fill.drop (overlay bytes front).length)).length +
      total fill block (overlay bytes front) ts
  | front, .long _ :: ts => (cstr block).length + total fill block front ts

theorem total_append (fill block front : List UInt8) (ts us : List Text) :
    total fill block front (ts ++ us) =
      total fill block front ts + total fill block (knownFront front ts) us := by
  induction ts generalizing front with
  | nil => exact (Nat.zero_add _).symm
  | cons t ts ih =>
    cases t with
    | short bytes =>
      show _ + total fill block _ (ts ++ us) = _ + total fill block _ ts + _
      rw [ih, Nat.add_assoc]
      rfl
    | long len =>
      show _ + total fill block _ (ts ++ us) = _ + total fill block _ ts + _
      rw [ih, Nat.add_assoc]
      rfl

/-- Memory as it is chosen for a run. -/
structure Chosen (R : Runtime) (A : SexpType → ℕ → Bool) (M : ℕ → ℕ → Bool)
    (fill block : List UInt8) : Prop where
  allocVector : R.allocVector = A
  malloc : ∀ k len, R.malloc k len = if M k len then some block else none
  /-- It fills `dec_buf`. -/
  fill_length : fill.length = sizeofDecBuf
  /-- A fresh block holds a name. -/
  block_pos : 0 < (cstr block).length
  block_le : (cstr block).length ≤ MAXIDSIZE

/-- `dec_buf` is known up to `fill`. -/
def Laid (fill front : List UInt8) (m : Decoder Unit) : Prop :=
  front.length ≤ sizeofDecBuf ∧ m.dec_buf = front ++ fill.drop front.length

theorem overlay_fill (bytes front fill : List UInt8) :
    bytes ++ (front ++ fill.drop front.length).drop bytes.length =
      overlay bytes front ++ fill.drop (overlay bytes front).length := by
  have hdrop : (fill.drop front.length).drop (bytes.length - front.length) =
      fill.drop (overlay bytes front).length := by
    unfold overlay
    rw [List.drop_drop, List.length_append, List.length_drop]
    congr 1
    omega
  rw [List.drop_append, hdrop]
  unfold overlay
  rw [List.append_assoc]

section Builds

variable {R : Runtime} {A : SexpType → ℕ → Bool} {M : ℕ → ℕ → Bool} {fill block : List UInt8}
  {α β : Type}

/-- Memory permitting, the step succeeds, and the text in its result, measured by `size`,
and in the attributes of shared objects grows by that of the texts. -/
def Builds (M : ℕ → ℕ → Bool) (fill block : List UInt8) (x : Load Unit α) (ts : List Text)
    (credit : ℕ) (size : α → ℕ) (P : α → Prop) : Prop :=
  ∀ front m, Laid fill front m → Available M m.mallocs ts →
    ∃ a m', x m = .ok a m' ∧ Laid fill (knownFront front ts) m' ∧
      m'.mallocs = m.mallocs + longs ts ∧
      size a + sharedSize m'.shared = credit + sharedSize m.shared + total fill block front ts ∧
      P a

theorem Builds.pure {a : α} {credit : ℕ} {size : α → ℕ} {P : α → Prop} (h : size a = credit)
    (hP : P a) : Builds M fill block (pure a) [] credit size P :=
  fun _ m hm _ => ⟨a, m, rfl, hm, rfl, by rw [h]; rfl, hP⟩

theorem Builds.credit {x : Load Unit α} {ts : List Text} {size : α → ℕ} {P : α → Prop}
    (h : Builds M fill block x ts 0 size P) (c : ℕ) :
    Builds M fill block x ts c (fun a => c + size a) P := by
  intro front m hm hav
  obtain ⟨a, m', hx, hm', hk, hsize, hP⟩ := h front m hm hav
  refine ⟨a, m', hx, hm', hk, ?_, hP⟩
  show c + size a + _ = _
  omega

theorem Builds.bind {x : Load Unit α} {f : α → Load Unit β} {ts us : List Text} {c : ℕ}
    {size : α → ℕ} {size' : β → ℕ} {P : α → Prop} {Q : β → Prop}
    (hx : Builds M fill block x ts c size P)
    (hf : ∀ a, P a → Builds M fill block (f a) us (size a) size' Q) :
    Builds M fill block (x >>= f) (ts ++ us) c size' Q := by
  intro front m hm hav
  obtain ⟨hav, hav'⟩ := available_append.mp hav
  obtain ⟨a, m', hxa, hm', hk, hsize, hP⟩ := hx front m hm hav
  rw [← hk] at hav'
  obtain ⟨b, m'', hfb, hm'', hk', hsize', hQ⟩ := hf a hP _ m' hm' hav'
  refine ⟨b, m'', ?_, ?_, ?_, ?_, hQ⟩
  · simp only [Bind.bind, EStateM.bind, hxa]
    exact hfb
  · rw [knownFront_append]
    exact hm''
  · rw [hk', hk, longs_append, Nat.add_assoc]
  · rw [total_append]
    omega

theorem Builds.bind_last {x : Load Unit α} {f : α → Load Unit β} {ts : List Text} {c : ℕ}
    {size : α → ℕ} {size' : β → ℕ} {P : α → Prop} {Q : β → Prop}
    (hx : Builds M fill block x ts c size P)
    (hf : ∀ a, P a → Builds M fill block (f a) [] (size a) size' Q) :
    Builds M fill block (x >>= f) ts c size' Q := by
  have h := hx.bind hf
  rwa [List.append_nil] at h

variable (hR : Chosen R A M fill block)
include hR

theorem builds_allocVector {t : SexpType} {len : ℕ} (h : A t len = true) :
    Builds M fill block (allocVector R t len) [] 0 (fun _ => 0) fun _ => True := by
  unfold allocVector
  rw [hR.allocVector, if_pos h]
  exact Builds.pure rfl trivial

theorem builds_text (noMemory : ℕ → RError) {text : Text} (hv : text.Valid) :
    Builds M fill block (text.eval R noMemory) [text] 0 CString.length
      fun s => s.length ≤ MAXIDSIZE ∧ (text.Named → 0 < text.len → 0 < s.length) := by
  cases text with
  -- the text is read from the buffer, with what an earlier one has left behind it
  | short bytes =>
    have hlt : bytes.length < sizeofDecBuf := hv
    intro front m hm _
    let db := overlay bytes front ++ fill.drop (overlay bytes front).length
    have hdb : bytes ++ m.dec_buf.drop bytes.length = db := by
      rw [hm.2]
      exact overlay_fill bytes front fill
    -- the front that is known stays within the buffer
    have hfront : (overlay bytes front).length ≤ sizeofDecBuf := by
      unfold overlay
      rw [List.length_append, List.length_drop]
      have := hm.1
      omega
    have hlen : db.length ≤ sizeofDecBuf := by
      show (overlay bytes front ++ fill.drop (overlay bytes front).length).length ≤ _
      rw [List.length_append, List.length_drop, hR.fill_length]
      omega
    refine ⟨cstr db, { m with dec_buf := db }, ?_, ⟨hfront, rfl⟩, rfl, ?_, ?_, ?_⟩
    · rw [← hdb]
      rfl
    · show (cstr db).length + sharedSize m.shared =
        0 + sharedSize m.shared + ((cstr db).length + 0)
      omega
    · have hle : (cstr db).length ≤ db.length := (List.takeWhile_prefix _).length_le
      unfold sizeofDecBuf at hlen
      unfold MAXIDSIZE
      omega
    · intro hnamed hpos
      -- a named text has a first byte that is not NUL
      cases bytes with
      | nil => exact absurd hpos (Nat.lt_irrefl 0)
      | cons b bs =>
        have hb : b ≠ 0 := fun h => hnamed (by rw [h]; rfl)
        show 0 < ((b :: _ : List UInt8).takeWhile fun b => b != 0).length
        rw [List.takeWhile_cons, if_pos (bne_iff_ne.mpr hb)]
        exact Nat.succ_pos _
  -- the text is read from the new block, which has nothing of the stream
  | long len =>
    intro front m hm hav
    have hmalloc : R.malloc m.mallocs len = some block := by
      rw [hR.malloc, if_pos hav.1]
    refine ⟨cstr block, { m with mallocs := m.mallocs + 1 }, ?_, hm, rfl, ?_, hR.block_le,
      fun _ _ => hR.block_pos⟩
    · simp only [Text.eval, Bind.bind, EStateM.bind, malloc, hmalloc]
      rfl
    · show (cstr block).length + sharedSize m.shared =
        0 + sharedSize m.shared + ((cstr block).length + 0)
      omega

omit hR in
theorem builds_setAttrib {res : SEXP} (hres : res.Bare) (attr : Cells) :
    Builds M fill block (setAttrib res attr) [] (attr.textSize + res.textSize) SEXP.textSize
      fun v => ∀ c, res = .charsxp c → v = .charsxp c := by
  intro front m hm _
  unfold setAttrib
  split
  · next a o s u =>
    obtain rfl : a = .nil := hres
    refine ⟨_, m, rfl, hm, rfl, ?_, fun c hc => SEXP.noConfusion hc⟩
    simp only [SEXP.textSize, Cells.textSize, total]
    omega
  · refine ⟨res, { m with shared := m.shared ++ [(res, attr)] }, rfl, hm, rfl, ?_,
      fun c hc => hc⟩
    simp only [sharedSize, List.map_append, List.sum_append, List.map_cons, List.map_nil,
      List.sum_cons, List.sum_nil, total]
    omega

omit hR in
theorem builds_environment (len : ℕ) :
    Builds M fill block (evalEnvironment len) [] 0 SEXP.textSize fun v => v.Bare := by
  unfold evalEnvironment
  split
  · exact Builds.pure rfl trivial
  · split
    · exact Builds.pure rfl trivial
    · split
      · exact Builds.pure rfl trivial
      · intro front m hm _
        exact ⟨_, { m with warnings := _ }, rfl, hm, rfl, rfl, trivial⟩

/-- What an evaluation makes of a record. -/
def Body.Built (b : Body) (v : SEXP) : Prop :=
  v.Bare ∧ ((Tree.plain b).isString = true → ∃ c, v = .charsxp c)

omit hR in
theorem Body.Built.of_ne {b : Body} {v : SEXP} (hv : v.Bare)
    (hb : (Tree.plain b).isString = false) : b.Built v :=
  ⟨hv, fun h => absurd h (by rw [hb]; exact Bool.false_ne_true)⟩

omit hR in
theorem Datum.bare_fresh (u : Datum) : u.fresh.Bare := rfl

omit hR

mutual

/-- **An accepted tree is evaluated with success**, memory permitting, and its texts are
all in the result. -/
theorem Tree.builds (hR : Chosen R A M fill block) : ∀ t : Tree, t.Valid → t.Accepted A →
    Builds M fill block (t.eval R) t.texts 0 SEXP.textSize
      fun v => t.isString = true → ∃ c, v = .charsxp c
  | .plain b, hv, ha => by
    intro front m hm hav
    obtain ⟨v, m', hx, hm', hk, hsize, hP⟩ := Body.builds hR b hv.1 ha front m hm hav
    exact ⟨v, m', hx, hm', hk, hsize, hP.2⟩
  | .attributed attr b, hv, ha => by
    refine (Pairs.builds hR attr false hv.1 ha.1).bind fun a _ => ?_
    refine ((Body.builds hR b hv.2.2 ha.2).credit _).bind_last fun res hres => ?_
    have hstring : (Tree.attributed attr b).isString = true → ∃ c, res = .charsxp c := by
      intro h
      refine hres.2 ?_
      rw [← h]
      cases b <;> rfl
    split
    · intro front m hm hav
      obtain ⟨v, m', hx, hm', hk, hsize, hP⟩ := builds_setAttrib hres.1 a front m hm hav
      refine ⟨v, m', hx, hm', hk, hsize, fun h => ?_⟩
      obtain ⟨c, hc⟩ := hstring h
      exact ⟨c, hP c hc⟩
    · next h0 =>
      have ha0 : a = .nil := Cells.length_eq_zero.mp (not_not.mp h0)
      refine Builds.pure ?_ hstring
      rw [ha0]
      exact (Nat.zero_add _).symm

theorem Body.builds (hR : Chosen R A M fill block) : ∀ b : Body, b.Valid → b.Accepted A →
    Builds M fill block (b.eval R) b.texts 0 SEXP.textSize b.Built
  | .null _, _, _ => Builds.pure rfl (.of_ne trivial rfl)
  | .atoms t len bytes, _, ha => (builds_allocVector hR ha).bind_last fun _ _ =>
      Builds.pure (textSize_fresh _) (.of_ne (Datum.bare_fresh _) rfl)
  | .missingArg, _, _ => Builds.pure rfl (.of_ne trivial rfl)
  | .symbol text, hv, ha => by
    refine (builds_text hR _ hv.1).bind_last fun s hs => ?_
    have hpos : s.length ≠ 0 := Nat.ne_of_gt (hs.2 ha hv.2)
    unfold install
    rw [if_neg hpos, if_neg (Nat.not_lt.mpr hs.1)]
    exact Builds.pure rfl (.of_ne trivial rfl)
  | .string text, hv, _ => (builds_text hR _ hv).bind_last fun s _ =>
      Builds.pure rfl ⟨trivial, fun _ => ⟨_, rfl⟩⟩
  | .generic elts, hv, ha => by
    refine (builds_allocVector hR ha.1).bind fun _ _ => ?_
    refine (Trees.builds hR elts hv.1 ha.2).bind_last fun xs _ => ?_
    exact Builds.pure (textSize_fresh _) (.of_ne (Datum.bare_fresh _) rfl)
  | .strings elts, hv, ha => by
    refine (builds_allocVector hR ha.1).bind fun _ _ => ?_
    refine (Trees.builds_strings hR elts hv.1 ha.2).bind_last fun xs _ => ?_
    exact Builds.pure (textSize_fresh _) (.of_ne (Datum.bare_fresh _) rfl)
  | .closure _ f b e, hv, ha => by
    refine (Tree.builds hR f hv.2.1 ha.1).bind fun f' _ => ?_
    refine ((Tree.builds hR b hv.2.2.1 ha.2.1).credit _).bind fun b' _ => ?_
    refine ((Tree.builds hR e hv.2.2.2 ha.2.2).credit _).bind_last fun e' _ => ?_
    exact Builds.pure (textSize_fresh _) (.of_ne (Datum.bare_fresh _) rfl)
  | .cells t c, hv, ha => (Pairs.builds hR c (t == .LANGSXP) hv.1 ha).bind_last fun c' _ =>
      Builds.pure (textSize_toSEXP c') (.of_ne c'.bare_toSEXP rfl)
  | .environment len, _, _ => by
    intro front m hm hav
    obtain ⟨v, m', hx, hm', hk, hsize, hP⟩ := builds_environment len front m hm hav
    exact ⟨v, m', hx, hm', hk, hsize, .of_ne hP rfl⟩

theorem Trees.builds (hR : Chosen R A M fill block) : ∀ ts : Trees, ts.Valid → ts.Accepted A →
    Builds M fill block (ts.eval R) ts.texts 0 textSizeElts fun _ => True
  | .nil, _, _ => Builds.pure rfl trivial
  | .cons t ts, hv, ha => by
    refine (Tree.builds hR t hv.1 ha.1).bind fun x _ => ?_
    refine ((Trees.builds hR ts hv.2 ha.2).credit _).bind_last fun xs _ => ?_
    exact Builds.pure rfl trivial

theorem Trees.builds_strings (hR : Chosen R A M fill block) : ∀ ts : Trees, ts.Valid →
    ts.AcceptedStrings A → Builds M fill block (ts.evalStrings R) ts.texts 0
      (fun cs => (cs.map fun c => (CHAR c).length).sum) fun _ => True
  | .nil, _, _ => Builds.pure rfl trivial
  | .cons t ts, hv, ha => by
    refine (Tree.builds hR t hv.1 ha.1).bind fun x hx => ?_
    obtain ⟨c, rfl⟩ := hx ha.2.1
    refine ((Trees.builds_strings hR ts hv.2 ha.2.2).credit _).bind_last fun xs _ => ?_
    exact Builds.pure (by rw [List.map_cons, List.sum_cons]; rfl) trivial

theorem Pairs.builds (hR : Chosen R A M fill block) : ∀ (c : Pairs) (lang : Bool), c.Valid →
    c.Accepted A → Builds M fill block (c.eval R lang) c.texts 0 Cells.textSize fun _ => True
  | .nil, _, _, _ => Builds.pure rfl trivial
  | .cons tag val c, lang, hv, ha => by
    refine (Tree.builds hR tag hv.1 ha.1).bind fun tag' _ => ?_
    refine ((Tree.builds hR val hv.2.1 ha.2.1).credit _).bind fun val' _ => ?_
    refine ((Pairs.builds hR c lang hv.2.2 ha.2.2).credit _).bind_last fun c' _ => ?_
    exact Builds.pure rfl trivial

end

end Builds

/-! ### Two fillings of memory -/

mutual

theorem Tree.texts_valid : ∀ t : Tree, t.Valid → ∀ x ∈ t.texts, x.Valid
  | .plain b, hv => Body.texts_valid b hv.1
  | .attributed attr b, hv =>
    List.forall_mem_append.mpr ⟨Pairs.texts_valid attr hv.1, Body.texts_valid b hv.2.2⟩

theorem Body.texts_valid : ∀ b : Body, b.Valid → ∀ x ∈ b.texts, x.Valid
  | .null _, _ | .atoms _ _ _, _ | .missingArg, _ | .environment _, _ =>
    fun _ hx => absurd hx List.not_mem_nil
  | .symbol _, hv => List.forall_mem_singleton.mpr hv.1
  | .string _, hv => List.forall_mem_singleton.mpr hv
  | .generic elts, hv | .strings elts, hv => Trees.texts_valid elts hv.1
  | .closure _ f b e, hv => List.forall_mem_append.mpr ⟨Tree.texts_valid f hv.2.1,
      List.forall_mem_append.mpr ⟨Tree.texts_valid b hv.2.2.1, Tree.texts_valid e hv.2.2.2⟩⟩
  | .cells _ c, hv => Pairs.texts_valid c hv.1

theorem Trees.texts_valid : ∀ ts : Trees, ts.Valid → ∀ x ∈ ts.texts, x.Valid
  | .nil, _ => fun _ hx => absurd hx List.not_mem_nil
  | .cons t ts, hv =>
    List.forall_mem_append.mpr ⟨Tree.texts_valid t hv.1, Trees.texts_valid ts hv.2⟩

theorem Pairs.texts_valid : ∀ c : Pairs, c.Valid → ∀ x ∈ c.texts, x.Valid
  | .nil, _ => fun _ hx => absurd hx List.not_mem_nil
  | .cons tag val c, hv => List.forall_mem_append.mpr ⟨Tree.texts_valid tag hv.1,
      List.forall_mem_append.mpr ⟨Tree.texts_valid val hv.2.1, Pairs.texts_valid c hv.2.2⟩⟩

end

/-- `dec_buf` before the first load. -/
def zeroFill : List UInt8 := List.replicate (sizeofDecBuf - 1) 0 ++ [0]

/-- `dec_buf` full of letters. -/
def letterFill : List UInt8 := List.replicate (sizeofDecBuf - 1) 97 ++ [0]

theorem DecBuf.replicate (b : UInt8) : DecBuf (List.replicate (sizeofDecBuf - 1) b ++ [0]) :=
  ⟨_, by rw [List.length_replicate]; rfl, rfl⟩

/-- A front that does not settle its text leaves more text over letters than over
zeros. -/
theorem length_cstr_fill {front : List UInt8} (hlen : front.length < sizeofDecBuf)
    (h0 : 0 ∉ front) :
    (cstr (front ++ zeroFill.drop front.length)).length = front.length ∧
      (cstr (front ++ letterFill.drop front.length)).length = sizeofDecBuf - 1 := by
  have hdrop : ∀ b : UInt8, (List.replicate (sizeofDecBuf - 1) b ++ [0]).drop front.length =
      List.replicate (sizeofDecBuf - 1 - front.length) b ++ [0] := by
    intro b
    rw [List.drop_append_of_le_length (by rw [List.length_replicate]; omega),
      List.drop_replicate]
  rw [length_cstr_append h0, length_cstr_append h0]
  unfold zeroFill letterFill
  rw [hdrop, hdrop]
  constructor
  · cases sizeofDecBuf - 1 - front.length with
    | zero => rfl
    | succ k => rfl
  · have hletters : (0 : UInt8) ∉ List.replicate (sizeofDecBuf - 1 - front.length) 97 := by
      intro h
      exact absurd (List.eq_of_mem_replicate h) (by decide)
    rw [length_cstr_append hletters, List.length_replicate]
    show front.length + (_ + 0) = _
    omega

/-- Over letters there is at least as much text, and more when a text is not settled. -/
theorem total_le (ts : List Text) (front : List UInt8) (hv : ∀ x ∈ ts, x.Valid)
    (hlen : front.length < sizeofDecBuf) :
    total zeroFill [97, 0] front ts ≤ total letterFill [97, 97, 0] front ts ∧
      (total zeroFill [97, 0] front ts = total letterFill [97, 97, 0] front ts →
        Settled front ts) := by
  induction ts generalizing front with
  | nil => exact ⟨Nat.le_refl _, fun _ => trivial⟩
  | cons t ts ih =>
    have hts : ∀ x ∈ ts, x.Valid := fun x hx => hv x (List.mem_cons_of_mem _ hx)
    cases t with
    | long len =>
      obtain ⟨hle, -⟩ := ih front hts hlen
      have h₀ : (cstr [97, 0]).length = 1 := rfl
      have h₁ : (cstr [97, 97, 0]).length = 2 := rfl
      unfold total
      rw [h₀, h₁]
      exact ⟨by omega, fun h => absurd h (by omega)⟩
    | short bytes =>
      have hbytes : bytes.length < sizeofDecBuf := hv (.short bytes) (List.mem_cons_self ..)
      have hover : (overlay bytes front).length < sizeofDecBuf := by
        unfold overlay
        rw [List.length_append, List.length_drop]
        omega
      obtain ⟨hle, hsettled⟩ := ih (overlay bytes front) hts hover
      unfold total Settled
      by_cases h0 : (0 : UInt8) ∈ overlay bytes front
      · rw [cstr_append_of_mem h0, cstr_append_of_mem h0]
        exact ⟨by omega, fun h => ⟨Or.inl h0, hsettled (by omega)⟩⟩
      · obtain ⟨hzero, hletter⟩ := length_cstr_fill hover h0
        rw [hzero, hletter]
        refine ⟨by omega, fun h => ⟨Or.inr ?_, hsettled ?_⟩⟩ <;> omega

/-! ### Loads that depend on the stream alone -/

section Depends

variable {A : SexpType → ℕ → Bool} {M : ℕ → ℕ → Bool}

/-- The condition on a stream: when a value at its front is accepted, its texts are
settled. -/
def StreamSettled (A : SexpType → ℕ → Bool) (M : ℕ → ℕ → Bool) (bytes : List UInt8) : Prop :=
  ∀ (t : Tree) (rest : List UInt8), bytes = t.wire ++ rest → t.Valid → t.Accepted A →
    Available M 0 t.texts → Settled [] t.texts

theorem SameFront.start {db db' : List UInt8} (h : DecBuf db) (h' : DecBuf db') :
    SameFront [] (Decoder.on () db) (Decoder.on () db') :=
  ⟨h, h', List.nil_prefix, List.nil_prefix, rfl, rfl, rfl⟩

/-- A load that succeeds over one scratch memory succeeds over any other, with the same
value. -/
theorem StreamSettled.outcome_of_ok {bytes : List UInt8} (hs : StreamSettled A M bytes)
    {R R' : Runtime} (hR : R.Offers A M) (hR' : R'.Offers A M) {db db' : List UInt8}
    (hdb : DecBuf db) (hdb' : DecBuf db') {v : SEXP} {st : Decoder (List UInt8)}
    (h : C_mem_restore R bytes db = .ok v st) :
    ∃ st', C_mem_restore R' bytes db' = .ok v st' ∧ st'.shared = st.shared := by
  obtain ⟨t, hv, hbytes, m, heval, hm⟩ := restore_ok h
  obtain ⟨hav, -, haccepted, -⟩ := Tree.uses hR t _ _ _ heval
  have hsettled := hs t st.api hbytes hv haccepted hav
  have hrun := Tree.lockstep_settled (hR.allocVector.trans hR'.allocVector.symm) t [] hv hsettled
    _ _ (SameFront.start hdb hdb')
  have hwire := restore_wire (R := R') hv st.api db'
  rw [← hbytes] at hwire
  rw [heval] at hrun
  cases heval' : t.eval R' (Decoder.on () db') with
  | error e m' =>
    rw [heval'] at hrun
    exact hrun.elim
  | ok w m' =>
    rw [heval'] at hrun hwire
    obtain ⟨rfl, hfront⟩ := hrun
    cases hload : C_mem_restore R' bytes db' with
    | error e st' =>
      rw [hload] at hwire
      exact hwire.elim
    | ok w' st' =>
      rw [hload] at hwire
      obtain ⟨rfl, hm'⟩ := hwire
      exact ⟨st', rfl, by rw [hm'.shared, ← hfront.shared, hm.shared]⟩

/-- Memory with a chosen name in every fresh block. -/
def Runtime.chosen (A : SexpType → ℕ → Bool) (M : ℕ → ℕ → Bool) (block : List UInt8) : Runtime where
  allocVector := A
  malloc k len := if M k len then some block else none

theorem Runtime.chosen_offers (block : List UInt8) : (Runtime.chosen A M block).Offers A M where
  allocVector := rfl
  malloc k len := by
    show (if M k len then some block else none).isSome = _
    cases M k len <;> rfl

/-- The load of an accepted tree over chosen memory: the amount of text in its
outcome. -/
theorem restore_chosen {t : Tree} {fill : List UInt8} (rest block : List UInt8) (hv : t.Valid)
    (ha : t.Accepted A) (hav : Available M 0 t.texts) (hfill : fill.length = sizeofDecBuf)
    (hpos : 0 < (cstr block).length) (hle : (cstr block).length ≤ MAXIDSIZE) :
    ∃ v shared, outcome (C_mem_restore (Runtime.chosen A M block) (t.wire ++ rest) fill) =
        .value v shared ∧
      v.textSize + sharedSize shared = total fill block [] t.texts := by
  have hR : Chosen (Runtime.chosen A M block) A M fill block :=
    ⟨rfl, fun _ _ => rfl, hfill, hpos, hle⟩
  obtain ⟨v, m, heval, -, -, hsize, -⟩ := Tree.builds hR t hv ha [] (Decoder.on () fill)
    ⟨Nat.zero_le _, rfl⟩ hav
  have hwire := restore_wire (R := Runtime.chosen A M block) hv rest fill
  rw [heval] at hwire
  cases hload : C_mem_restore (Runtime.chosen A M block) (t.wire ++ rest) fill with
  | error e st =>
    rw [hload] at hwire
    exact hwire.elim
  | ok w st =>
    rw [hload] at hwire
    obtain ⟨rfl, hm⟩ := hwire
    refine ⟨w, st.shared, rfl, ?_⟩
    rw [hm.shared, hsize]
    exact Nat.zero_add _

/-- **A load depends on the stream alone exactly when the texts of an accepted stream are
settled.** The loads compared run over any two contents of `dec_buf` and of fresh
memory, with the same allocations succeeding. The condition asks of every text of the
value at the front of the stream that its record is shorter than `dec_buf`, and that it
ends in its own record, or else among bytes which an earlier text of the same stream has
put there, or at the last byte of `dec_buf`. -/
theorem load_depends_on_stream_iff (A : SexpType → ℕ → Bool) (M : ℕ → ℕ → Bool)
    (bytes : List UInt8) :
    (∀ R R' : Runtime, R.Offers A M → R'.Offers A M → ∀ db db', DecBuf db → DecBuf db' →
        outcome (C_mem_restore R bytes db) = outcome (C_mem_restore R' bytes db')) ↔
      StreamSettled A M bytes := by
  constructor
  · intro h t rest hbytes hv ha hav
    have hfill : ∀ b : UInt8, (List.replicate (sizeofDecBuf - 1) b ++ [0]).length = sizeofDecBuf :=
      fun b => by rw [List.length_append, List.length_replicate]; rfl
    obtain ⟨v₀, sh₀, hrun₀, hsize₀⟩ := restore_chosen rest [97, 0] hv ha hav
      (hfill 0) (by decide) (by decide)
    obtain ⟨v₁, sh₁, hrun₁, hsize₁⟩ := restore_chosen rest [97, 97, 0] hv ha
      hav (hfill 97) (by decide) (by decide)
    have hsame := h _ _ (Runtime.chosen_offers [97, 0]) (Runtime.chosen_offers [97, 97, 0]) _ _
      (DecBuf.replicate 0) (DecBuf.replicate 97)
    rw [hbytes, hrun₀, hrun₁] at hsame
    obtain ⟨rfl, rfl⟩ := Outcome.value.inj hsame
    exact (total_le t.texts [] (Tree.texts_valid t hv) (Nat.succ_pos _)).2
      (hsize₀.symm.trans hsize₁)
  · intro hs R R' hR hR' db db' hdb hdb'
    cases hload : C_mem_restore R bytes db with
    | ok v st =>
      obtain ⟨st', hload', hshared⟩ := hs.outcome_of_ok hR hR' hdb hdb' hload
      rw [hload']
      show Outcome.value v st.shared = Outcome.value v st'.shared
      rw [hshared]
    | error e st =>
      cases hload' : C_mem_restore R' bytes db' with
      | ok v' st' =>
        obtain ⟨_, h, -⟩ := hs.outcome_of_ok hR' hR hdb' hdb hload'
        rw [hload] at h
        cases h
      | error e' st' =>
        -- both are errors, since neither reaches the depth bound
        have hdeep := outcome_ne_tooDeep R db (Nat.lt_succ_self bytes.length)
        have hdeep' := outcome_ne_tooDeep R' db' (Nat.lt_succ_self bytes.length)
        unfold C_mem_restore at hload hload'
        rw [hload] at hdeep
        rw [hload'] at hdeep'
        cases e with
        | rerror e =>
          cases e' with
          | rerror e' => rfl
          | tooDeep => exact absurd rfl hdeep'
        | tooDeep => exact absurd rfl hdeep

end Depends

/-- **A string of an earlier load is returned.** The first stream is the string `key`.
It leaves its text in `dec_buf`, and the second stream, a string record of length zero,
returns it. Over the buffer before the first load the second stream is the empty
string. -/
theorem stale_text_returned :
    ∃ st, C_mem_restore .ample (header .CHARSXP 4 ++ [107, 101, 121, 0]) zeroFill =
        .ok (.charsxp (mkChar (cstr [107, 101, 121, 0]))) st ∧
      DecBuf zeroFill ∧ DecBuf st.dec_buf ∧
      outcome (C_mem_restore .ample (header .CHARSXP 0) zeroFill) ≠
        outcome (C_mem_restore .ample (header .CHARSXP 0) st.dec_buf) := by
  refine ⟨_, rfl, DecBuf.replicate 0,
    (DecBuf.replicate 0).overlay [107, 101, 121, 0] (by decide), fun h => ?_⟩
  have hzero : outcome (C_mem_restore .ample (header .CHARSXP 0) zeroFill) =
      .value (.charsxp (mkChar (cstr []))) [] := rfl
  rw [hzero] at h
  cases h

end Sfs
end Osrv
