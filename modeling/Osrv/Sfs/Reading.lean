import Osrv.Sfs.Syntax

/-!
# Reading trees

The decoder over memory, in front of the bytes of a valid tree, runs in lockstep with
the evaluation of the tree and stops right behind these bytes (`Tree.lockstep_wire`,
a mutual induction over the tree). Conversely, the bytes that a successful load has
taken are those of a valid tree (`sfs_load_reads_tree`, by induction on the depth).
-/

namespace Osrv
namespace Sfs

open Bytes Lib

variable {R : Runtime}

/-! ### In front of known bytes -/

/-- The unread bytes are `rest`, and the rest of the decoder is the evaluation's. -/
abbrev Unread (rest : List UInt8) : Decoder (List UInt8) → Decoder Unit → Prop :=
  Alike fun s _ => s = rest

/-- Any stop of the one goes with any stop of the other. -/
abbrev AnyStop : Stop → Stop → Prop := fun _ _ => True

theorem anyStop (e d : RError) : AnyStop (.rerror e) (.rerror d) := trivial

section Known

variable {bs rest : List UInt8} {len : ℕ}

theorem fetch_buf_append (h : bs.length = len) :
    fetch_buf.fetch (bs ++ rest) len = .got bs rest := by
  have hge : ¬ (bs ++ rest).length < len := by
    rw [List.length_append]
    omega
  show (if (bs ++ rest).length < len then _ else _) = _
  rw [if_neg hge, List.take_left' h, List.drop_left' h]

theorem lockstep_fetch_known (h : bs.length = len) :
    Lockstep (Unread (bs ++ rest)) AnyStop (fetch fetch_buf len) (pure bs) (Unread rest) := by
  rintro ⟨s, db, m, w, sh⟩ ⟨⟨⟩, db', m', w', sh'⟩ ⟨hs, rfl, rfl, rfl, rfl⟩
  have hs' : s = bs ++ rest := hs
  subst hs'
  unfold fetch
  simp only [fetch_buf_append h]
  exact ⟨rfl, rfl, rfl, rfl, rfl, rfl⟩

theorem lockstep_fetchDecBuf_known (h : bs.length = len) :
    Lockstep (Unread (bs ++ rest)) AnyStop (fetchDecBuf fetch_buf len)
      (modify fun st => { st with dec_buf := bs ++ st.dec_buf.drop bs.length }) (Unread rest) := by
  rintro ⟨s, db, m, w, sh⟩ ⟨⟨⟩, db', m', w', sh'⟩ ⟨hs, rfl, rfl, rfl, rfl⟩
  have hs' : s = bs ++ rest := hs
  subst hs'
  unfold fetchDecBuf
  simp only [fetch_buf_append h]
  exact ⟨rfl, rfl, rfl, rfl, rfl, rfl⟩

theorem lockstep_header {ts : SexpType} (hts : ∀ n, ts ≠ .unassigned n) (hlen : len < 2 ^ 56) :
    Lockstep (Unread (header ts len ++ rest)) AnyStop (fetchHdr fetch_buf)
      (pure (len * 256 + ts.code)) (Unread rest) := by
  have hcode := SexpType.code_lt hts
  have hval : leVal (header ts len) = len * 256 + ts.code :=
    leVal_le_of_lt (by
      have : (256 : ℕ) ^ 8 = 2 ^ 56 * 256 := by norm_num
      omega)
  unfold fetchHdr
  refine (lockstep_fetch_known (length_header ts len)).bind_pure ?_
  rw [hval]
  exact Lockstep.pure _

end Known

/-! ### The decoder follows the tree -/

theorem CellsType.type_ne (t : CellsType) (n : ℕ) : t.type ≠ .unassigned n := by
  cases t <;> simp [CellsType.type]

theorem AtomType.type_ne (t : AtomType) (n : ℕ) : t.type ≠ .unassigned n := by
  cases t <;> simp [AtomType.type]

theorem Body.ts_ne (b : Body) (n : ℕ) : b.ts ≠ .unassigned n := by
  cases b with
  | atoms t len bytes => exact AtomType.type_ne t n
  | cells t c => exact CellsType.type_ne t n
  | _ => simp [Body.ts]

theorem Body.Valid.len_lt {b : Body} (h : b.Valid) : b.len < 2 ^ 56 := by
  have htext : ∀ text : Text, text.Valid → text.len < 2 ^ 56 := by
    intro text ht
    cases text with
    | short bytes =>
      have hlt : bytes.length < sizeofDecBuf := ht
      unfold sizeofDecBuf at hlt
      show bytes.length < 2 ^ 56
      omega
    | long len => exact ht.2
  cases b with
  | null len => exact h
  | atoms t len bytes => exact h.2.1
  | missingArg => exact Nat.two_pow_pos 56
  | symbol text => exact htext text h.1
  | string text => exact htext text h
  | generic elts => exact h.2
  | strings elts => exact h.2
  | closure len f b e => exact h.1
  | cells t c => exact h.2
  | environment len => exact h

/-- A header word taken apart. -/
theorem decode_one_header {σ : Type} {api : FetchApi σ} {load : Load σ SEXP} {ts : SexpType}
    (hts : ∀ n, ts ≠ .unassigned n) (len : ℕ) :
    decode_one R api load (len * 256 + ts.code) = decodeSwitch R api load ts.code len := by
  have hcode := SexpType.code_lt hts
  unfold decode_one
  rw [show (len * 256 + ts.code) % 256 = ts.code by omega,
    show (len * 256 + ts.code) >>> 8 = len by rw [Nat.shiftRight_eq_div_pow]; omega]

theorem loadPrefix_header {σ : Type} {api : FetchApi σ} {load : Load σ SEXP} {ts : SexpType}
    (hts : ∀ n, ts ≠ .unassigned n) (len : ℕ) :
    loadPrefix R api load (len * 256 + ts.code) =
      if ts = .ATTRSXP then do
        let attr ← decode_one R api load (len * 256 + ts.code)
        let hdr' ← fetchHdr api
        return (attr.cells, hdr')
      else return (.nil, len * 256 + ts.code) := by
  have hcode := SexpType.code_lt hts
  unfold loadPrefix
  rw [show (len * 256 + ts.code) % 256 = ts.code by omega, SexpType.ofCode_code ts hts]

theorem lockstep_text {text : Text} (hv : text.Valid) (noMemory : ℕ → RError)
    (rest : List UInt8) :
    Lockstep (Unread (text.wire ++ rest)) AnyStop (decodeText R fetch_buf noMemory text.len)
      (text.eval R noMemory) (Unread rest) := by
  cases text with
  | short bytes =>
    have hlt : bytes.length < sizeofDecBuf := hv
    unfold decodeText Text.eval Text.len Text.wire
    rw [if_pos hlt]
    refine (lockstep_fetchDecBuf_known rfl).bind fun _ => ?_
    intro st m h
    exact ⟨congrArg cstr h.dec_buf, h⟩
  | long len =>
    have hge : ¬ len < sizeofDecBuf := Nat.not_lt.mpr hv.1
    unfold decodeText Text.eval Text.len Text.wire
    rw [if_neg hge]
    refine (lockstep_malloc len).bind fun buf => ?_
    cases buf with
    | none => exact lockstep_rf_error anyStop _
    | some buf => exact Lockstep.pure _

theorem lockstep_atoms {t : AtomType} {len : ℕ} {bytes : List UInt8} (hlen : len < 2 ^ 56)
    (hb : bytes.length = len * t.el) (rest : List UInt8) :
    Lockstep (Unread (bytes ++ rest)) AnyStop (decodeAtoms R fetch_buf t len)
      ((Body.atoms t len bytes).eval R) (Unread rest) := by
  have hel := t.el_le
  have hmod : bytes.length = len * t.el % 2 ^ 64 := by
    rw [hb, Nat.mod_eq_of_lt]
    have hle : len * t.el ≤ len * 16 := Nat.mul_le_mul_left _ hel
    omega
  unfold decodeAtoms Body.eval
  refine (lockstep_allocVector anyStop t.type len).bind fun _ => ?_
  exact (lockstep_fetch_known hmod).bind_pure (Lockstep.pure _)

theorem lockstep_environment (len : ℕ) (rest : List UInt8) :
    Lockstep (Unread rest) AnyStop (evalEnvironment len) (evalEnvironment len) (Unread rest) := by
  unfold evalEnvironment
  split
  · exact Lockstep.pure _
  · split
    · exact Lockstep.pure _
    · split
      · exact Lockstep.pure _
      · exact (lockstep_rf_warning _).bind fun _ => Lockstep.pure _

mutual

/-- **The decoder reads a tree** and comes to what the tree evaluates to. -/
theorem Tree.lockstep_wire : ∀ (t : Tree) (n : ℕ), t.Valid → t.height ≤ n →
    ∀ rest, Lockstep (Unread (t.wire ++ rest)) AnyStop (sfs_load R fetch_buf n) (t.eval R)
      (Unread rest)
  | .plain b, n, hv, hn, rest => by
    obtain ⟨k, rfl⟩ : ∃ k, n = k + 1 := ⟨n - 1, by simp only [Tree.height] at hn; omega⟩
    have hbody := Body.lockstep_wire b k hv.1 (Nat.le_of_succ_le_succ hn) rest
    unfold sfs_load loadBody Tree.wire Tree.eval
    rw [List.append_assoc]
    refine (lockstep_header b.ts_ne hv.1.len_lt).bind_pure ?_
    rw [loadPrefix_header b.ts_ne, if_neg hv.2]
    show Lockstep _ _ (decode_one R fetch_buf (sfs_load R fetch_buf k)
      (b.len * 256 + b.ts.code) >>= fun res => pure res) _ _
    rw [bind_pure, decode_one_header b.ts_ne]
    exact hbody
  | .attributed attr b, n, hv, hn, rest => by
    obtain ⟨k, rfl⟩ : ∃ k, n = k + 1 := ⟨n - 1, by simp only [Tree.height] at hn; omega⟩
    simp only [Tree.height] at hn
    have hattr := Pairs.lockstep_wire attr false k hv.1 (by omega)
      (header b.ts b.len ++ (b.wire ++ rest))
    have hbody := Body.lockstep_wire b k hv.2.2 (by omega) rest
    have hts : ∀ n, SexpType.ATTRSXP ≠ .unassigned n := fun n => by simp
    unfold sfs_load loadBody Tree.wire Tree.eval
    rw [List.append_assoc, List.append_assoc, List.append_assoc]
    refine (lockstep_header hts hv.2.1).bind_pure ?_
    rw [loadPrefix_header hts, if_pos rfl, decode_one_header hts]
    show Lockstep _ _ ((loadCells (sfs_load R fetch_buf k) false attr.length >>= fun c =>
      pure c.toSEXP) >>= _ >>= _) _ _
    rw [bind_assoc, bind_assoc]
    refine hattr.bind fun a => ?_
    rw [pure_bind, bind_assoc, Cells.cells_toSEXP]
    refine (lockstep_header b.ts_ne hv.2.2.len_lt).bind_pure ?_
    rw [pure_bind, decode_one_header b.ts_ne]
    refine hbody.bind fun res => ?_
    split
    · exact lockstep_setAttrib res a
    · exact Lockstep.pure _

theorem Body.lockstep_wire : ∀ (b : Body) (n : ℕ), b.Valid → b.height ≤ n →
    ∀ rest, Lockstep (Unread (b.wire ++ rest)) AnyStop
      (decodeSwitch R fetch_buf (sfs_load R fetch_buf n) b.ts.code b.len) (b.eval R) (Unread rest)
  | .null _, _, _, _, rest => Lockstep.pure _
  | .atoms t len bytes, _, hv, _, rest => by
    have hread := lockstep_atoms (R := R) hv.2.1 hv.2.2 rest
    cases t with
    | RAWSXP => exact absurd rfl hv.1
    | _ => exact hread
  | .missingArg, _, _, _, rest => Lockstep.pure _
  | .symbol text, _, hv, _, rest => by
    have hlen : text.len ≠ 0 := Nat.ne_of_gt hv.2
    show Lockstep _ _ (if text.len = 0 then pure R_MissingArg
      else decodeText R fetch_buf .noSymbolMemory text.len >>= install) _ _
    rw [if_neg hlen]
    exact (lockstep_text hv.1 _ rest).bind fun s => lockstep_install anyStop s
  | .string text, _, hv, _, rest => (lockstep_text hv _ rest).bind fun s => Lockstep.pure _
  | .generic elts, n, hv, hn, rest => by
    refine (lockstep_allocVector anyStop .VECSXP elts.length).bind fun _ => ?_
    exact (Trees.lockstep_wire elts n hv.1 hn rest).bind fun xs => Lockstep.pure _
  | .strings elts, n, hv, hn, rest => by
    refine (lockstep_allocVector anyStop .STRSXP elts.length).bind fun _ => ?_
    exact (Trees.lockstep_strings elts n hv.1 hn rest).bind fun cs => Lockstep.pure _
  | .closure len f b e, n, hv, hn, rest => by
    simp only [Body.height] at hn
    have hf := Tree.lockstep_wire f n hv.2.1 (by omega) (b.wire ++ (e.wire ++ rest))
    have hb := Tree.lockstep_wire b n hv.2.2.1 (by omega) (e.wire ++ rest)
    have he := Tree.lockstep_wire e n hv.2.2.2 (by omega) rest
    unfold Body.wire Body.eval
    rw [List.append_assoc, List.append_assoc]
    exact hf.bind fun _ => hb.bind fun _ => he.bind fun _ => Lockstep.pure _
  | .cells t c, n, hv, hn, rest => by
    have hc := Pairs.lockstep_wire c (t == .LANGSXP) n hv.1 hn rest
    unfold Body.eval
    cases t <;> exact hc.bind fun _ => Lockstep.pure _
  | .environment len, _, _, _, rest => lockstep_environment len rest

theorem Trees.lockstep_wire : ∀ (ts : Trees) (n : ℕ), ts.Valid → ts.height ≤ n →
    ∀ rest, Lockstep (Unread (ts.wire ++ rest)) AnyStop
      (loadElts (sfs_load R fetch_buf n) ts.length) (ts.eval R) (Unread rest)
  | .nil, _, _, _, rest => Lockstep.pure _
  | .cons t ts, n, hv, hn, rest => by
    simp only [Trees.height] at hn
    have ht := Tree.lockstep_wire t n hv.1 (by omega) (ts.wire ++ rest)
    have hts := Trees.lockstep_wire ts n hv.2 (by omega) rest
    unfold Trees.wire Trees.eval
    rw [List.append_assoc]
    exact ht.bind fun x => hts.bind fun xs => Lockstep.pure _

theorem Trees.lockstep_strings : ∀ (ts : Trees) (n : ℕ), ts.Valid → ts.height ≤ n →
    ∀ rest, Lockstep (Unread (ts.wire ++ rest)) AnyStop
      (loadStrings (sfs_load R fetch_buf n) ts.length) (ts.evalStrings R) (Unread rest)
  | .nil, _, _, _, rest => Lockstep.pure _
  | .cons t ts, n, hv, hn, rest => by
    simp only [Trees.height] at hn
    have ht := Tree.lockstep_wire t n hv.1 (by omega) (ts.wire ++ rest)
    have hts := Trees.lockstep_strings ts n hv.2 (by omega) rest
    unfold Trees.wire Trees.evalStrings
    rw [List.append_assoc]
    refine ht.bind fun x => ?_
    cases x with
    | charsxp c => exact hts.bind fun cs => Lockstep.pure _
    | _ => exact fun _ _ _ => trivial

theorem Pairs.lockstep_wire : ∀ (c : Pairs) (lang : Bool) (n : ℕ), c.Valid → c.height ≤ n →
    ∀ rest, Lockstep (Unread (c.wire ++ rest)) AnyStop
      (loadCells (sfs_load R fetch_buf n) lang c.length) (c.eval R lang) (Unread rest)
  | .nil, _, _, _, _, rest => Lockstep.pure _
  | .cons tag val c, lang, n, hv, hn, rest => by
    simp only [Pairs.height] at hn
    have htag := Tree.lockstep_wire tag n hv.1 (by omega) (val.wire ++ (c.wire ++ rest))
    have hval := Tree.lockstep_wire val n hv.2.1 (by omega) (c.wire ++ rest)
    have hc := Pairs.lockstep_wire c lang n hv.2.2 (by omega) rest
    unfold Pairs.wire Pairs.eval
    rw [List.append_assoc, List.append_assoc]
    exact htag.bind fun _ => hval.bind fun _ => hc.bind fun _ => Lockstep.pure _

end

/-! ### What a load has read -/

section Takes

variable {α β : Type}

/-- Whenever the step succeeds, the bytes it has taken satisfy `P` with its result. -/
def Takes (x : Load (List UInt8) α) (P : α → List UInt8 → Prop) : Prop :=
  ∀ st a st', x st = .ok a st' → ∃ inp, st.api = inp ++ st'.api ∧ P a inp

theorem Takes.imp {x : Load (List UInt8) α} {P Q : α → List UInt8 → Prop} (h : Takes x P)
    (hPQ : ∀ a inp, P a inp → Q a inp) : Takes x Q := by
  intro st a st' hx
  obtain ⟨inp, hinp, hP⟩ := h st a st' hx
  exact ⟨inp, hinp, hPQ a inp hP⟩

theorem Takes.pure {P : α → List UInt8 → Prop} {a : α} (h : P a []) : Takes (pure a) P := by
  rintro st _ _ ⟨⟩
  exact ⟨[], rfl, h⟩

theorem Takes.error {P : α → List UInt8 → Prop} (e : RError) :
    Takes (rf_error e : Load (List UInt8) α) P :=
  fun _ _ _ h => nomatch h

theorem Takes.bind {x : Load (List UInt8) α} {f : α → Load (List UInt8) β}
    {P : α → List UInt8 → Prop} {Q : β → List UInt8 → Prop} (hx : Takes x P)
    (hf : ∀ a inp, P a inp → Takes (f a) fun b inp' => Q b (inp ++ inp')) :
    Takes (x >>= f) Q := by
  intro st b st'' h
  simp only [Bind.bind, EStateM.bind] at h
  split at h
  · next a st' hxa =>
    obtain ⟨inp, hinp, hP⟩ := hx st a st' hxa
    obtain ⟨inp', hinp', hQ⟩ := hf a inp hP st' b st'' h
    exact ⟨inp ++ inp', by rw [hinp, hinp', List.append_assoc], hQ⟩
  · cases h

/-- A step that leaves the unread bytes alone. -/
theorem Takes.bind_nil {x : Load (List UInt8) α} {f : α → Load (List UInt8) β}
    {Q : β → List UInt8 → Prop} (hx : Takes x fun _ inp => inp = []) (hf : ∀ a, Takes (f a) Q) :
    Takes (x >>= f) Q :=
  hx.bind fun a inp hinp => by
    subst hinp
    exact hf a

theorem takes_fetch (len : ℕ) :
    Takes (fetch fetch_buf len) fun bs inp => bs = inp ∧ inp.length = len := by
  rintro ⟨s, db, m, w, sh⟩ bs st' h
  unfold fetch fetch_buf at h
  by_cases hlen : s.length < len
  · simp only [hlen, if_true] at h
    cases h
  · simp only [hlen, if_false] at h
    cases h
    exact ⟨_, (List.take_append_drop len s).symm, rfl, List.length_take_of_le (by omega)⟩

theorem takes_fetchDecBuf (len : ℕ) :
    Takes (fetchDecBuf fetch_buf len) fun _ inp => inp.length = len := by
  rintro ⟨s, db, m, w, sh⟩ bs st' h
  unfold fetchDecBuf fetch_buf at h
  by_cases hlen : s.length < len
  · simp only [hlen, if_true] at h
    cases h
  · simp only [hlen, if_false] at h
    cases h
    exact ⟨_, (List.take_append_drop len s).symm, List.length_take_of_le (by omega)⟩

theorem takes_fetchHdr :
    Takes (fetchHdr fetch_buf) fun hdr inp => inp = le 8 hdr ∧ hdr < 2 ^ 64 := by
  refine (takes_fetch 8).bind ?_
  rintro bs _ ⟨rfl, hlen⟩
  refine Takes.pure ⟨?_, ?_⟩
  · rw [List.append_nil, ← hlen, le_leVal]
  · have hlt := leVal_lt bs
    rw [hlen] at hlt
    exact hlt

theorem takes_allocVector (t : SexpType) (len : ℕ) :
    Takes (allocVector R t len) fun _ inp => inp = [] := by
  unfold allocVector
  split
  · exact Takes.pure rfl
  · exact Takes.error _

theorem takes_install (name : CString) : Takes (install name) fun _ inp => inp = [] := by
  unfold install
  split
  · exact Takes.error _
  · split
    · exact Takes.error _
    · exact Takes.pure rfl

theorem takes_setAttrib (res : SEXP) (attr : Cells) :
    Takes (setAttrib res attr) fun _ inp => inp = [] := by
  unfold setAttrib
  split
  · exact Takes.pure rfl
  · rintro st _ _ ⟨⟩
    exact ⟨[], rfl, rfl⟩

theorem takes_environment (len : ℕ) : Takes (evalEnvironment len) fun _ inp => inp = [] := by
  unfold evalEnvironment
  split
  · exact Takes.pure rfl
  · split
    · exact Takes.pure rfl
    · split
      · exact Takes.pure rfl
      · rintro st _ _ ⟨⟩
        exact ⟨[], rfl, rfl⟩

/-- A text record of any length. -/
theorem takes_text (noMemory : ℕ → RError) {len : ℕ} (hlen : len < 2 ^ 56) :
    Takes (decodeText R fetch_buf noMemory len)
      fun _ inp => ∃ text : Text, text.Valid ∧ text.len = len ∧ inp = text.wire := by
  unfold decodeText
  split
  · next hlt =>
    refine (takes_fetchDecBuf len).bind fun _ inp hinp => ?_
    rintro st _ _ ⟨⟩
    refine ⟨[], rfl, .short inp, ?_, hinp, List.append_nil inp⟩
    show inp.length < sizeofDecBuf
    rw [hinp]
    exact hlt
  · next hge =>
    have hmalloc : Takes (malloc R len) fun _ inp => inp = [] := by
      rintro st _ _ ⟨⟩
      exact ⟨[], rfl, rfl⟩
    refine hmalloc.bind_nil fun buf => ?_
    cases buf with
    | none => exact Takes.error _
    | some buf => exact Takes.pure ⟨.long len, ⟨Nat.not_lt.mp hge, hlen⟩, rfl, rfl⟩

/-! ### Loops and records -/

section Load

variable {load : Load (List UInt8) SEXP}
  (hload : Takes load fun _ inp => ∃ t : Tree, t.Valid ∧ inp = t.wire)
include hload

theorem takes_loadElts (n : ℕ) :
    Takes (loadElts load n)
      fun _ inp => ∃ ts : Trees, ts.Valid ∧ ts.length = n ∧ inp = ts.wire := by
  induction n with
  | zero => exact Takes.pure ⟨.nil, trivial, rfl, rfl⟩
  | succ n ih =>
    refine hload.bind ?_
    rintro x _ ⟨t, ht, rfl⟩
    refine ih.bind ?_
    rintro xs _ ⟨ts, hts, rfl, rfl⟩
    exact Takes.pure ⟨.cons t ts, ⟨ht, hts⟩, rfl, by rw [List.append_nil]; rfl⟩

theorem takes_loadStrings (n : ℕ) :
    Takes (loadStrings load n)
      fun _ inp => ∃ ts : Trees, ts.Valid ∧ ts.length = n ∧ inp = ts.wire := by
  induction n with
  | zero => exact Takes.pure ⟨.nil, trivial, rfl, rfl⟩
  | succ n ih =>
    refine hload.bind ?_
    rintro x _ ⟨t, ht, rfl⟩
    cases x with
    | charsxp c =>
      refine ih.bind ?_
      rintro cs _ ⟨ts, hts, rfl, rfl⟩
      exact Takes.pure ⟨.cons t ts, ⟨ht, hts⟩, rfl, by rw [List.append_nil]; rfl⟩
    | _ => exact Takes.error _

theorem takes_loadCells (lang : Bool) (n : ℕ) :
    Takes (loadCells load lang n)
      fun _ inp => ∃ c : Pairs, c.Valid ∧ c.length = n ∧ inp = c.wire := by
  induction n with
  | zero => exact Takes.pure ⟨.nil, trivial, rfl, rfl⟩
  | succ n ih =>
    refine hload.bind ?_
    rintro tag _ ⟨t, ht, rfl⟩
    refine hload.bind ?_
    rintro val _ ⟨v, hv, rfl⟩
    refine ih.bind ?_
    rintro rest _ ⟨c, hc, rfl, rfl⟩
    refine Takes.pure ⟨.cons t v c, ⟨ht, hv, hc⟩, rfl, ?_⟩
    rw [List.append_nil, ← List.append_assoc]
    rfl

/-- The bytes behind a header are those of a record with this header. -/
theorem takes_decodeSwitch (ts : ℕ) {len : ℕ} (hlen : len < 2 ^ 56) :
    Takes (decodeSwitch R fetch_buf load ts len) fun _ inp =>
      ∃ b : Body, b.Valid ∧ b.ts = SexpType.ofCode ts ∧ b.len = len ∧ inp = b.wire := by
  -- the vectors of elements of a fixed size
  have hatoms : ∀ t : AtomType, t ≠ .RAWSXP → Takes (decodeAtoms R fetch_buf t len)
      fun _ inp => ∃ b : Body, b.Valid ∧ b.ts = t.type ∧ b.len = len ∧ inp = b.wire := by
    intro t ht
    refine (takes_allocVector t.type len).bind_nil fun _ => ?_
    refine (takes_fetch _).bind ?_
    rintro bs _ ⟨rfl, hbs⟩
    -- the number of bytes does not overflow
    have hmod : len * t.el % 2 ^ 64 = len * t.el := Nat.mod_eq_of_lt (by
      have hle : len * t.el ≤ len * 16 := Nat.mul_le_mul_left _ t.el_le
      omega)
    rw [hmod] at hbs
    exact Takes.pure ⟨.atoms t len bs, ⟨ht, hlen, hbs⟩, rfl, rfl, List.append_nil bs⟩
  -- the three kinds of pairlist
  have hcells : ∀ (t : CellsType) (lang : Bool),
      Takes (do let c ← loadCells load lang len; return c.toSEXP)
        fun _ inp => ∃ b : Body, b.Valid ∧ b.ts = t.type ∧ b.len = len ∧ inp = b.wire := by
    intro t lang
    refine (takes_loadCells hload lang len).bind ?_
    rintro c' _ ⟨c, hc, hclen, rfl⟩
    have hlt : c.length < 2 ^ 56 := by rwa [hclen]
    exact Takes.pure ⟨.cells t c, ⟨hc, hlt⟩, rfl, hclen, List.append_nil _⟩
  unfold decodeSwitch
  split
  · next heq => exact Takes.pure ⟨.null len, hlen, heq.symm, rfl, rfl⟩
  · next heq => rw [heq]; exact hatoms .INTSXP (by decide)
  · next heq => rw [heq]; exact hatoms .LGLSXP (by decide)
  · next heq => rw [heq]; exact hatoms .REALSXP (by decide)
  · next heq => rw [heq]; exact hatoms .CPLXSXP (by decide)
  · next heq =>
    rw [heq]
    split
    -- a symbol without a name
    · next h0 => exact Takes.pure ⟨.missingArg, trivial, rfl, h0.symm, rfl⟩
    · next h0 =>
      refine (takes_text _ hlen).bind ?_
      rintro s _ ⟨text, htext, rfl, rfl⟩
      refine (takes_install s).imp ?_
      rintro x _ rfl
      exact ⟨.symbol text, ⟨htext, Nat.pos_of_ne_zero h0⟩, rfl, rfl, List.append_nil _⟩
  · next heq =>
    rw [heq]
    -- lists, one record after the other
    refine (takes_allocVector _ _).bind_nil fun _ => (takes_loadElts hload len).bind ?_
    rintro xs _ ⟨ts, hts, rfl, rfl⟩
    exact Takes.pure ⟨.generic ts, ⟨hts, hlen⟩, rfl, rfl, List.append_nil _⟩
  · next heq =>
    rw [heq]
    -- vectors of strings
    refine (takes_allocVector _ _).bind_nil fun _ => (takes_loadStrings hload len).bind ?_
    rintro xs _ ⟨ts, hts, rfl, rfl⟩
    exact Takes.pure ⟨.strings ts, ⟨hts, hlen⟩, rfl, rfl, List.append_nil _⟩
  · next heq =>
    rw [heq]
    refine (takes_text _ hlen).bind ?_
    rintro s _ ⟨text, htext, rfl, rfl⟩
    exact Takes.pure ⟨.string text, htext, rfl, rfl, List.append_nil _⟩
  · next heq =>
    rw [heq]
    -- a closure: formals, body and environment
    refine hload.bind ?_
    rintro formals _ ⟨f, hf, rfl⟩
    refine hload.bind ?_
    rintro body _ ⟨b, hb, rfl⟩
    refine hload.bind ?_
    rintro cloenv _ ⟨e, he, rfl⟩
    refine Takes.pure ⟨.closure len f b e, ⟨hlen, hf, hb, he⟩, rfl, rfl, ?_⟩
    rw [List.append_nil, ← List.append_assoc]
    rfl
  · next heq => rw [heq]; exact hcells .ATTRSXP false
  · next heq => rw [heq]; exact hcells .LISTSXP false
  · next heq => rw [heq]; exact hcells .LANGSXP true
  · next heq =>
    rw [heq]
    refine (takes_environment len).imp ?_
    rintro x _ rfl
    exact ⟨.environment len, hlen, rfl, rfl, rfl⟩
  -- the other types are errors
  · exact Takes.error _

end Load

/-- **A successful load has read a tree.** -/
theorem sfs_load_reads_tree (n : ℕ) :
    Takes (sfs_load R fetch_buf n) fun _ inp => ∃ t : Tree, t.Valid ∧ inp = t.wire := by
  have hcode : ∀ ts : ℕ, (SexpType.ofCode ts).code = ts := by
    intro ts
    unfold SexpType.ofCode
    split <;> rfl
  -- a header word in terms of the record it announces
  have hheader : ∀ hdr : ℕ, le 8 hdr = header (SexpType.ofCode (hdr % 256)) (hdr >>> 8) := by
    intro hdr
    unfold header
    rw [hcode, Nat.shiftRight_eq_div_pow]
    congr 1
    omega
  have hlen : ∀ hdr : ℕ, hdr < 2 ^ 64 → hdr >>> 8 < 2 ^ 56 := by
    intro hdr h
    rw [Nat.shiftRight_eq_div_pow]
    omega
  induction n with
  | zero => exact fun _ _ _ h => nomatch h
  | succ n ih =>
    unfold sfs_load loadBody
    refine takes_fetchHdr.bind ?_
    rintro hdr _ ⟨rfl, hdr64⟩
    unfold loadPrefix
    split
    · next hattr =>
      -- an attribute record, and the header of the object
      rw [bind_assoc]
      refine (takes_decodeSwitch ih _ (hlen hdr hdr64)).bind ?_
      rintro attr _ ⟨a, ha, hats, halen, rfl⟩
      rw [bind_assoc]
      refine takes_fetchHdr.bind ?_
      rintro hdr' _ ⟨rfl, hdr64'⟩
      rw [pure_bind]
      refine (takes_decodeSwitch ih _ (hlen hdr' hdr64')).bind ?_
      rintro res _ ⟨b, hb, hbts, hblen, rfl⟩
      rw [hattr] at hats
      cases a with
      | cells t c =>
        cases t with
        -- the code of the record is that of an attribute list, so it is one
        | ATTRSXP =>
          have hclen : c.length = hdr >>> 8 := halen
          have htree : ∀ i : List UInt8, i = [] →
              le 8 hdr ++ (c.wire ++ (le 8 hdr' ++ (b.wire ++ i))) =
                (Tree.attributed c b).wire := by
            rintro i rfl
            unfold Tree.wire
            rw [hheader hdr, hheader hdr', hattr, hbts, hblen, hclen, List.append_nil]
            simp only [List.append_assoc]
          have hvalid : (Tree.attributed c b).Valid := ⟨ha.1, ha.2, hb⟩
          split
          · refine (takes_setAttrib res _).imp ?_
            intro _ i hi
            exact ⟨.attributed c b, hvalid, htree i hi⟩
          · exact Takes.pure ⟨.attributed c b, hvalid, htree [] rfl⟩
        | _ => cases hats
      | atoms t len bytes => cases t <;> cases hats
      | _ => cases hats
    · next hattr =>
      -- an object without attributes
      rw [pure_bind]
      refine (takes_decodeSwitch ih _ (hlen hdr hdr64)).bind ?_
      rintro res _ ⟨b, hb, hbts, hblen, rfl⟩
      refine Takes.pure ⟨.plain b, ⟨hb, by rwa [hbts]⟩, ?_⟩
      unfold Tree.wire
      rw [hheader hdr, hbts, hblen, List.append_nil]

end Takes

/-! ### Loads from memory -/

/-- A load from memory of the bytes of a tree comes to what the tree evaluates to. -/
theorem restore_wire {t : Tree} (hv : t.Valid) (rest dec_buf : List UInt8) :
    ResultsMatch (Unread rest) AnyStop (C_mem_restore R (t.wire ++ rest) dec_buf)
      (t.eval R (Decoder.on () dec_buf)) := by
  refine Tree.lockstep_wire t _ hv ?_ rest _ _ ⟨rfl, rfl, rfl, rfl, rfl⟩
  have hle := t.height_le
  rw [List.length_append]
  omega

/-- A load from memory that returns a value has evaluated a tree at the front of the
stream. -/
theorem restore_ok {bytes dec_buf : List UInt8} {v : SEXP} {st : Decoder (List UInt8)}
    (h : C_mem_restore R bytes dec_buf = .ok v st) :
    ∃ t : Tree, t.Valid ∧ bytes = t.wire ++ st.api ∧
      ∃ m, t.eval R (Decoder.on () dec_buf) = .ok v m ∧ Unread st.api st m := by
  obtain ⟨_, hbytes, t, hv, rfl⟩ := sfs_load_reads_tree (R := R) (bytes.length + 1)
    (Decoder.start bytes dec_buf) v st h
  have hrun := restore_wire (R := R) hv st.api dec_buf
  rw [← show bytes = t.wire ++ st.api from hbytes, h] at hrun
  refine ⟨t, hv, hbytes, ?_⟩
  cases heval : t.eval R (Decoder.on () dec_buf) with
  | ok w m =>
    rw [heval] at hrun
    obtain ⟨rfl, hm⟩ := hrun
    exact ⟨m, rfl, hm⟩
  | error e m =>
    rw [heval] at hrun
    exact hrun.elim

end Sfs
end Osrv
