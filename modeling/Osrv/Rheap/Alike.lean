import Osrv.Lib.Lockstep
import Osrv.Rheap.Values

/-!
# The steps of the two decoders

`sfs_load` over R's memory and `sfs_load` over values are two embeddings of one function.
`Tracks` says what their states have in common, and `Agree` that a step of the one ends as
a step of the other does. Calls of the API that only concern the protect stack are steps of
the left computation alone. What they do to the memory is said by `Becomes`, and what a
load has come to by `Gives`.

Here are the calls of R's API, the calls of `fetch`, and the records that no other load is
needed for: symbols, strings, environments and the vectors of plain memory.
-/

namespace Osrv
namespace Rheap

open Bytes Sfs Lib

variable {σ α β : Type} {R : Runtime} {src : Source σ} {m m₁ m₂ m' : Machine σ} {st st' : Decoder σ}
  {W : World} {r c : Ref} {v : SEXP}

/-! ### What the two have in common -/

/-- The states agree in all that the decoder over values has, but for the attributes of the
objects R shares. -/
structure Tracks (m : Machine σ) (st : Decoder σ) : Prop where
  api : m.api = st.api
  dec_buf : m.dec_buf = st.dec_buf
  mallocs : m.mallocs = st.mallocs
  warnings : m.warnings = st.warnings

/-- The loads have stopped for the same reason. -/
def StopsAlike (e : Stop) (m : Machine σ) (d : Sfs.Stop) (st : Decoder σ) : Prop :=
  match e, d with
  | .rerror e, .rerror d => e = d ∧ Tracks m st
  | .tooDeep, .tooDeep => True
  | _, _ => False

/-- The stops that the decoder over values does not have. -/
def GivesUp (R : Runtime) (e : Stop) : Prop :=
  e = .spins ∨ e = .memory ∧ ∃ top, R.cell top = false

/-- Nothing has changed but the stack, the trace and, to `W`, what R keeps. -/
structure Becomes (m : Machine σ) (W : World) (m' : Machine σ) : Prop where
  world : m'.world = W
  api : m'.api = m.api
  dec_buf : m'.dec_buf = m.dec_buf
  mallocs : m'.mallocs = m.mallocs
  warnings : m'.warnings = m.warnings

/-- What a load has come to that has started where R kept `W`. -/
structure Gives (W : World) (r : Ref) (m' : Machine σ) (v : SEXP) (st' : Decoder σ) : Prop where
  tracks : Tracks m' st'
  valid : m'.world.Valid
  later : Later ∅ W m'.world
  denotes : Denotes m'.world v (Set.Ico W.heap.top m'.world.heap.top) r

/-- What a load of a pairlist has come to. -/
structure GivesCells (W : World) (r : Ref) (m' : Machine σ) (cs : Sfs.Cells)
    (st' : Decoder σ) : Prop where
  tracks : Tracks m' st'
  valid : m'.world.Valid
  later : Later ∅ W m'.world
  denotes : DenotesCells m'.world cs (Set.Ico W.heap.top m'.world.heap.top) r

/-- What has happened while the object `c` was filled in. -/
structure Fills (c : Ref) (W : World) (m' : Machine σ) (st' : Decoder σ) : Prop where
  tracks : Tracks m' st'
  valid : m'.world.Valid
  later : Later {c} W m'.world

/-- The two loaders run alike from states that agree. -/
def Loader (R : Runtime) (load : Act σ Ref) (load' : Load σ SEXP) : Prop :=
  ∀ m st, Tracks m st → m.world.Valid →
    Agree (GivesUp R) StopsAlike load m load' st (Gives m.world)

theorem Becomes.trans {W₁ : World} (h : Becomes m W₁ m₁) (h' : Becomes m₁ W m₂) :
    Becomes m W m₂ :=
  ⟨h'.world, h'.api.trans h.api, h'.dec_buf.trans h.dec_buf, h'.mallocs.trans h.mallocs,
    h'.warnings.trans h.warnings⟩

theorem Tracks.becomes (h : Tracks m st) (hb : Becomes m W m') : Tracks m' st :=
  ⟨hb.api.trans h.api, hb.dec_buf.trans h.dec_buf, hb.mallocs.trans h.mallocs,
    hb.warnings.trans h.warnings⟩

/-! ### Calls of the API -/

/-- The left computation takes a step that it can only stop in by giving up. -/
theorem Agree.step {x : Act σ α} {f : α → Act σ β} {γ : Type} {y : Load σ γ}
    {Q : β → Machine σ → γ → Decoder σ → Prop} {P : α → Machine σ → Prop}
    {E : Stop → Machine σ → Prop} (hx : Ends x m P E) (hE : ∀ e m', E e m' → GivesUp R e)
    (h : ∀ a m', P a m' → Agree (GivesUp R) StopsAlike (f a) m' y st Q) :
    Agree (GivesUp R) StopsAlike (x >>= f) m y st Q :=
  Agree.left (hx.mono h hE)

/-- A step that cannot stop. -/
theorem Agree.quiet {x : Act σ α} {f : α → Act σ β} {γ : Type} {y : Load σ γ}
    {Q : β → Machine σ → γ → Decoder σ → Prop} {W : α → World}
    (hx : Ends x m (fun a m' => Becomes m (W a) m') fun _ _ => False)
    (h : ∀ a m', Becomes m (W a) m' → Agree (GivesUp R) StopsAlike (f a) m' y st Q) :
    Agree (GivesUp R) StopsAlike (x >>= f) m y st Q :=
  Agree.step hx (fun _ _ h => h.elim) h

theorem becomes_pure (a : α) :
    Ends (pure a : Act σ α) m (fun _ m' => Becomes m m.world m') fun _ _ => False :=
  ⟨rfl, rfl, rfl, rfl, rfl⟩

theorem becomes_log (e : Event) :
    Ends (log e) m (fun _ m' => Becomes m m.world m') fun _ _ => False :=
  ⟨rfl, rfl, rfl, rfl, rfl⟩

theorem becomes_PROTECT (r : Ref) :
    Ends (PROTECT r) m (fun _ m' => Becomes m m.world m') fun _ _ => False :=
  ⟨rfl, rfl, rfl, rfl, rfl⟩

theorem becomes_UNPROTECT (n : ℕ) :
    Ends (UNPROTECT n) m (fun _ m' => Becomes m m.world m') fun _ _ => False :=
  ⟨rfl, rfl, rfl, rfl, rfl⟩

theorem becomes_change (r : Ref) (f : Object → Object) :
    Ends (change r f) m (fun _ m' => Becomes m (m.world.change r f) m') fun _ _ => False :=
  ⟨rfl, rfl, rfl, rfl, rfl⟩

theorem becomes_setContents (r v : Ref) (f : Contents → Contents) :
    Ends (setContents r v f) m
      (fun _ m' => Becomes m (m.world.change r fun o => { o with contents := f o.contents }) m')
      fun _ _ => False :=
  ⟨rfl, rfl, rfl, rfl, rfl⟩

/-- A string is stored. -/
theorem becomes_SET_STRING_ELT {i : ℕ}
    (h : (m.world.heap.objects r).contents.isCharsxp = true) :
    Ends (SET_STRING_ELT c i r) m
      (fun _ m' => Becomes m
        (m.world.change c fun o => { o with contents := o.contents.setElt i r }) m')
      fun _ _ => False := by
  unfold SET_STRING_ELT
  rw [ends_bind]
  show Ends (if (m.world.heap.objects r).contents.isCharsxp then _ else _) _ _ _
  rw [if_pos h]
  exact ⟨rfl, rfl, rfl, rfl, rfl⟩

/-- Anything else is refused. -/
theorem agree_refused (ht : Tracks m st) {i : ℕ} {f : Unit → Act σ α}
    {Q : α → Machine σ → β → Decoder σ → Prop}
    (h : (m.world.heap.objects r).contents.isCharsxp = false) :
    Agree (GivesUp R) StopsAlike (SET_STRING_ELT c i r >>= f) m
      (Sfs.rf_error .setStringElt : Load σ β) st Q := by
  have hx : Ends (SET_STRING_ELT c i r) m (fun _ _ => False)
      fun e m' => e = .rerror .setStringElt ∧ Tracks m' st := by
    unfold SET_STRING_ELT
    rw [ends_bind]
    show Ends (if (m.world.heap.objects r).contents.isCharsxp then _ else _) _ _ _
    rw [h]
    exact ⟨rfl, ht.api, ht.dec_buf, ht.mallocs, ht.warnings⟩
  refine hx.bind (fun e m' hstop => ?_) fun _ _ h => h.elim
  obtain ⟨rfl, ht'⟩ := hstop
  exact Or.inr ⟨_, _, rfl, rfl, ht'⟩

theorem becomes_allocCell (R : Runtime) (c : Contents) :
    Ends (allocCell R c) m
      (fun r m' => r = m.world.heap.top ∧ Becomes m (m.world.push c.fresh) m')
      fun e _ => GivesUp R e := by
  show Ends (alloc (R.cell m.heap.top) .memory c) m _ _
  cases hcell : R.cell m.heap.top with
  | false => exact Or.inr ⟨rfl, _, hcell⟩
  | true => exact ⟨rfl, rfl, rfl, rfl, rfl, rfl⟩

theorem agree_rf_error (h : Tracks m st) (e : RError) {Q : α → Machine σ → β → Decoder σ → Prop} :
    Agree (GivesUp R) StopsAlike (rf_error e : Act σ α) m (Sfs.rf_error e : Load σ β) st Q :=
  Agree.throw ⟨rfl, h⟩

theorem agree_allocVector (h : Tracks m st) (t : SexpType) (len : ℕ) :
    Agree (GivesUp R) StopsAlike (allocVector R t len) m (Sfs.allocVector R.toRuntime t len) st
      fun r m' _ st' => st' = st ∧ r = m.world.heap.top ∧
        Becomes m (m.world.push (vector t len).fresh) m' := by
  unfold allocVector Sfs.allocVector alloc
  cases R.allocVector t len with
  | false => exact Or.inr ⟨_, _, rfl, rfl, h.becomes ⟨rfl, rfl, rfl, rfl, rfl⟩⟩
  | true => exact ⟨_, _, rfl, rfl, rfl, rfl, rfl, rfl, rfl, rfl⟩

/-! ### Fetching -/

section Fetch

variable {sink : ℕ → List UInt8 → Act σ Unit} {n : ℕ} {D : List UInt8 → List UInt8}
  {V : List UInt8 → World}

/-- The pieces are written one behind the other. `D` and `V` say what `dec_buf` is and what R
keeps when some bytes have been written. -/
theorem becomes_receive
    (hsink : ∀ w bs m', Becomes { m with dec_buf := D w } (V w) m' → Ends (sink w.length bs) m'
      (fun _ => Becomes { m with dec_buf := D (w ++ bs) } (V (w ++ bs))) fun _ _ => False)
    (ps : List Piece) (w : List UInt8) (hm : Becomes { m with dec_buf := D w } (V w) m') :
    Ends (receive sink w.length ps) m'
      (fun _ => Becomes { m with dec_buf := D (w ++ received ps) } (V (w ++ received ps)))
      fun _ _ => False := by
  induction ps generalizing w m' with
  | nil =>
    rw [received, List.append_nil]
    exact hm
  | cons p ps ih =>
    cases p with
    | bytes bs =>
      refine (hsink w bs m' hm).bind (fun _ _ h => h) fun _ m₁ h₁ => ?_
      rw [received, ← List.append_assoc, ← List.length_append]
      exact ih (w ++ bs) h₁
    | check => exact ih w ⟨hm.world, hm.api, hm.dec_buf, hm.mallocs, hm.warnings⟩

/-- A call of `fetch` with what has been written when it returns, or when it does not. -/
theorem becomes_fetch (src : Source σ) (m : Machine σ)
    (hsink : ∀ (m : Machine σ) w bs m', Becomes { m with dec_buf := D w } (V w) m' →
      Ends (sink w.length bs) m'
        (fun _ => Becomes { m with dec_buf := D (w ++ bs) } (V (w ++ bs))) fun _ _ => False)
    (hD : D [] = m.dec_buf) (hV : V [] = m.world) :
    Ends (fetch src n sink) m
      (fun bs m' => (src.fetch m.api n).error = none ∧ bs = received (src.fetch m.api n).pieces ∧
        Becomes { m with api := (src.fetch m.api n).state, dec_buf := D bs } (V bs) m')
      fun e m' => ∃ er, e = .rerror er ∧ (src.fetch m.api n).error = some er ∧
        Becomes
          { m with
            api := (src.fetch m.api n).state
            dec_buf := D (received (src.fetch m.api n).pieces) }
          (V (received (src.fetch m.api n).pieces)) m' := by
  let m₀ : Machine σ := { m with api := (src.fetch m.api n).state }
  have hstart : Becomes { m₀ with dec_buf := D [] } (V []) m₀ :=
    ⟨hV.symm, rfl, hD.symm, rfl, rfl⟩
  have hreceive := becomes_receive (hsink m₀) (src.fetch m.api n).pieces [] hstart
  rw [List.nil_append] at hreceive
  refine Ends.bind hreceive (fun _ _ h => h.elim) fun _ m₁ h₁ => ?_
  cases herror : (src.fetch m.api n).error with
  | none => exact ⟨rfl, rfl, h₁⟩
  | some er => exact ⟨er, rfl, rfl, h₁⟩

/-- A fetch into memory R knows of, or into a local variable. -/
theorem agree_fetch (src : Source σ) (h : Tracks m st)
    (hsink : ∀ (m : Machine σ) w bs m', Becomes m (V w) m' → Ends (sink w.length bs) m'
      (fun _ => Becomes m (V (w ++ bs))) fun _ _ => False) (hV : V [] = m.world) :
    Agree (GivesUp R) StopsAlike (fetch src n sink) m (Sfs.fetch src.plain n) st
      fun bs m' bs' st' => bs' = bs ∧ Tracks m' st' ∧ m'.world = V bs := by
  have hfetch := becomes_fetch (D := fun _ => m.dec_buf) (n := n) src m
    (fun m w bs m' hm => hsink _ w bs m' hm) rfl hV
  refine Ends.mono hfetch (fun bs m' hok => ?_) fun e m' hstop => ?_
  · obtain ⟨herror, rfl, hm'⟩ := hok
    have hright : Sfs.fetch src.plain n st = .ok (received (src.fetch m.api n).pieces)
        { st with api := (src.fetch m.api n).state } := by
      unfold Sfs.fetch
      rw [← h.api, Source.plain_none herror]
    exact ⟨_, _, hright, rfl, ⟨hm'.api, hm'.dec_buf.trans h.dec_buf, hm'.mallocs.trans h.mallocs,
      hm'.warnings.trans h.warnings⟩, hm'.world⟩
  · obtain ⟨er, rfl, herror, hm'⟩ := hstop
    have hright : Sfs.fetch src.plain n st = .error (.rerror er)
        { st with api := (src.fetch m.api n).state } := by
      unfold Sfs.fetch
      rw [← h.api, Source.plain_some herror]
    exact Or.inr ⟨_, _, hright, rfl, hm'.api, hm'.dec_buf.trans h.dec_buf,
      hm'.mallocs.trans h.mallocs, hm'.warnings.trans h.warnings⟩

theorem agree_fetchHdr (h : Tracks m st) :
    Agree (GivesUp R) StopsAlike (fetchHdr src) m (Sfs.fetchHdr src.plain) st
      fun hdr m' hdr' st' => hdr' = hdr ∧ Tracks m' st' ∧ m'.world = m.world := by
  refine Agree.quiet (becomes_log .header) fun _ m₁ h₁ => ?_
  refine Agree.bind (agree_fetch (V := fun _ => m.world) src (h.becomes h₁)
    (fun _ _ _ _ hm => hm) h₁.world.symm) fun bs m₂ bs' st₂ h₂ => ?_
  obtain ⟨rfl, htracks, hworld⟩ := h₂
  exact Agree.pure ⟨rfl, htracks, hworld⟩

/-- Bytes written behind those that are there. -/
theorem overwrite_drop (w bs d : List UInt8) :
    overwrite w.length bs (w ++ d.drop w.length) = w ++ bs ++ d.drop (w ++ bs).length := by
  unfold overwrite
  rw [List.take_left, List.drop_append, List.drop_drop, List.length_append,
    List.drop_eq_nil_of_le (Nat.le_add_right _ _), List.nil_append, Nat.add_sub_cancel_left]

theorem agree_fetchDecBuf (h : Tracks m st) :
    Agree (GivesUp R) StopsAlike (fetchDecBuf src n) m (Sfs.fetchDecBuf src.plain n) st
      fun _ m' _ st' => Tracks m' st' ∧ m'.world = m.world := by
  refine Agree.quiet (becomes_log (.fetch 1 n n sizeofDecBuf)) fun _ m₁ h₁ => ?_
  have h' := h.becomes h₁
  have hsink : ∀ (m₀ : Machine σ) w bs m',
      Becomes { m₀ with dec_buf := w ++ m.dec_buf.drop w.length } m.world m' →
      Ends (writeDecBuf w.length bs) m'
        (fun _ => Becomes { m₀ with dec_buf := w ++ bs ++ m.dec_buf.drop (w ++ bs).length } m.world)
        fun _ _ => False := by
    intro m₀ w bs m' hm
    refine ⟨hm.world, hm.api, ?_, hm.mallocs, hm.warnings⟩
    show overwrite w.length bs m'.dec_buf = _
    rw [hm.dec_buf]
    exact overwrite_drop w bs m.dec_buf
  have hfetch := becomes_fetch (n := n) src m₁ hsink h₁.dec_buf.symm h₁.world.symm
  -- what both have in `dec_buf`
  let d : List UInt8 := received (src.fetch m₁.api n).pieces
    ++ m.dec_buf.drop (received (src.fetch m₁.api n).pieces).length
  refine Ends.bind hfetch (fun e m' hstop => ?_) fun bs m' hok => ?_
  · obtain ⟨er, rfl, herror, hm'⟩ := hstop
    have hright : Sfs.fetchDecBuf src.plain n st = .error (.rerror er)
        { st with api := (src.fetch m₁.api n).state, dec_buf := d } := by
      unfold Sfs.fetchDecBuf
      rw [← h'.api, Source.plain_some herror, ← h.dec_buf]
    exact Or.inr ⟨_, _, hright, rfl, hm'.api, hm'.dec_buf, hm'.mallocs.trans h'.mallocs,
      hm'.warnings.trans h'.warnings⟩
  · obtain ⟨herror, rfl, hm'⟩ := hok
    have hright : Sfs.fetchDecBuf src.plain n st = .ok ()
        { st with api := (src.fetch m₁.api n).state, dec_buf := d } := by
      unfold Sfs.fetchDecBuf
      rw [← h'.api, Source.plain_none herror, ← h.dec_buf]
    exact ⟨_, _, hright, ⟨hm'.api, hm'.dec_buf, hm'.mallocs.trans h'.mallocs,
      hm'.warnings.trans h'.warnings⟩, hm'.world⟩

end Fetch

/-! ### Symbols, strings and environments -/

theorem agree_decodeText (h : Tracks m st) (noMemory : ℕ → RError) (len : ℕ) :
    Agree (GivesUp R) StopsAlike (decodeText R src noMemory len) m
      (Sfs.decodeText R.toRuntime src.plain noMemory len) st
      fun s m' s' st' => s' = s ∧ Tracks m' st' ∧ m'.world = m.world := by
  unfold decodeText Sfs.decodeText
  by_cases hlen : len < sizeofDecBuf
  · rw [if_pos hlen, if_pos hlen]
    refine (agree_fetchDecBuf h).bind fun _ m₁ _ st₁ h₁ => ?_
    obtain ⟨htracks, hworld⟩ := h₁
    exact ⟨_, _, rfl, congrArg cstr htracks.dec_buf.symm,
      ⟨htracks.api, htracks.dec_buf, htracks.mallocs, htracks.warnings⟩, hworld⟩
  · rw [if_neg hlen, if_neg hlen]
    -- both have asked for as many blocks
    have hmalloc : Agree (GivesUp R) StopsAlike (malloc R len) m (Sfs.malloc R.toRuntime len) st
        fun b m' b' st' => b' = b ∧ Tracks m' st' ∧ m'.world = m.world := by
      refine ⟨_, _, rfl, ?_, ⟨h.api, h.dec_buf, congrArg (· + 1) h.mallocs, h.warnings⟩, rfl⟩
      rw [h.mallocs]
    refine hmalloc.bind fun b m₁ b' st₁ h₁ => ?_
    obtain ⟨rfl, htracks, hworld⟩ := h₁
    cases b' with
    | none => exact agree_rf_error htracks _
    | some buf => exact Agree.pure ⟨rfl, htracks, hworld⟩

theorem ends_intern_named (hW : m.world.Valid) (k : Interned) (s : CString) :
    Ends (intern R k s) m (fun r m' => ∃ W, Becomes m W m' ∧ W.Valid ∧ Later ∅ m.world W ∧
      W.interned k s = some r) fun e _ => GivesUp R e := by
  unfold intern
  rw [ends_bind, ends_modify, ends_bind, ends_get]
  dsimp only
  cases hk : m.interned k s with
  -- found
  | some r => exact ⟨m.world, ⟨rfl, rfl, rfl, rfl, rfl⟩, hW, Later.refl _ _, hk⟩
  -- made
  | none =>
    refine (becomes_allocCell R (k.contents s)).bind (fun _ _ h => h) fun r m₁ h₁ => ?_
    obtain ⟨rfl, h₁⟩ := h₁
    refine ⟨m.world.enter k s, ⟨?_, h₁.api, h₁.dec_buf, h₁.mallocs, h₁.warnings⟩, hW.enter hk,
      later_enter hk, enter_self ..⟩
    show (⟨m₁.world.heap, enter m₁.world.interned k s _⟩ : World) = _
    rw [h₁.world]
    rfl

theorem agree_install (h : Tracks m st) (hW : m.world.Valid) (name : CString) :
    Agree (GivesUp R) StopsAlike (install R name) m (Sfs.install name) st (Gives m.world) := by
  unfold install Sfs.install
  split
  · exact agree_rf_error h _
  split
  · exact agree_rf_error h _
  refine Ends.mono (ends_intern_named hW .symbol name) (fun r m' hr => ?_) fun _ _ hG => Or.inl hG
  obtain ⟨W, hb, hvalid, hlater, hnamed⟩ := hr
  obtain rfl := hb.world
  exact ⟨_, _, rfl, h.becomes hb, hvalid, hlater, Or.inr hnamed⟩

theorem agree_mkChar (h : Tracks m st) (hW : m.world.Valid) (s : CString) :
    Agree (GivesUp R) StopsAlike (mkChar R s) m
      (Pure.pure (.charsxp (Sfs.mkChar s)) : Load σ SEXP) st (Gives m.world) := by
  refine Ends.mono (ends_intern_named hW .string s) (fun r m' hr => ?_) fun _ _ hG => Or.inl hG
  obtain ⟨W, hb, hvalid, hlater, hnamed⟩ := hr
  obtain rfl := hb.world
  exact ⟨_, _, rfl, h.becomes hb, hvalid, hlater, s, rfl, hnamed⟩

theorem agree_decodeSymbol (h : Tracks m st) (hW : m.world.Valid) (len : ℕ) :
    Agree (GivesUp R) StopsAlike (decodeSymbol R src len) m
      (if len = 0 then return Sfs.R_MissingArg
       else do
        let s ← Sfs.decodeText R.toRuntime src.plain .noSymbolMemory len
        Sfs.install s) st (Gives m.world) := by
  unfold decodeSymbol
  by_cases hlen : len = 0
  · rw [if_pos hlen, if_pos hlen]
    exact Agree.pure ⟨h, hW, Later.refl _ _, Or.inl ⟨rfl, rfl⟩⟩
  · rw [if_neg hlen, if_neg hlen]
    refine (agree_decodeText h _ len).bind fun s m₁ s' st₁ h₁ => ?_
    obtain ⟨rfl, htracks, hworld⟩ := h₁
    rw [← hworld]
    exact agree_install htracks (hworld ▸ hW) s'

theorem agree_decodeString (h : Tracks m st) (hW : m.world.Valid) (len : ℕ) :
    Agree (GivesUp R) StopsAlike (decodeString R src len) m
      (do
        let s ← Sfs.decodeText R.toRuntime src.plain .noStringMemory len
        return .charsxp (Sfs.mkChar s)) st (Gives m.world) := by
  refine (agree_decodeText h _ len).bind fun s m₁ s' st₁ h₁ => ?_
  obtain ⟨rfl, htracks, hworld⟩ := h₁
  rw [← hworld]
  exact agree_mkChar htracks (hworld ▸ hW) s'

theorem agree_decodeEnv (h : Tracks m st) (hW : m.world.Valid) (len : ℕ) :
    Agree (GivesUp R) StopsAlike (decodeEnv len) m
      (if len = SFS_GLOBAL_ENV then return .environment .R_GlobalEnv
       else if len = SFS_EMPTY_ENV then return .environment .R_EmptyEnv
       else if len = SFS_BASE_ENV then return .environment .R_BaseEnv
       else do
        Sfs.rf_warning "Custom environments are not serialized."
        return .environment .R_BaseEnv) st (Gives m.world) := by
  unfold decodeEnv
  split
  · exact Agree.pure ⟨h, hW, Later.refl _ _, rfl⟩
  split
  · exact Agree.pure ⟨h, hW, Later.refl _ _, rfl⟩
  split
  · exact Agree.pure ⟨h, hW, Later.refl _ _, rfl⟩
  -- both warn
  · have hwarnings : m.warnings ++ ["Custom environments are not serialized."]
        = st.warnings ++ ["Custom environments are not serialized."] := by rw [h.warnings]
    exact ⟨_, _, rfl, ⟨h.api, h.dec_buf, h.mallocs, hwarnings⟩, hW, Later.refl _ _, rfl⟩

/-! ### Vectors -/

/-- The elements arrive one behind the other in a vector that has just been made. -/
theorem agree_fetchElements (h : Tracks m st) (t : AtomType) (len : ℕ)
    (hnew : m.world = W.push (Contents.atoms t len []).fresh) :
    Agree (GivesUp R) StopsAlike (fetchElements src t len W.heap.top) m
      (Sfs.fetch src.plain (byteCount t len)) st fun _ m' bs st' =>
        Tracks m' st' ∧ m'.world = W.push (Contents.atoms t len bs).fresh := by
  have hsink : ∀ (m₀ : Machine σ) w bs m',
      Becomes m₀ (W.push (Contents.atoms t len w).fresh) m' →
      Ends (writeElements W.heap.top w.length bs) m'
        (fun _ => Becomes m₀ (W.push (Contents.atoms t len (w ++ bs)).fresh)) fun _ _ => False := by
    intro m₀ w bs m' hm
    refine (becomes_change _ _).mono (fun _ m₁ h₁ => hm.trans ?_) fun _ _ h => h
    rw [hm.world, change_push] at h₁
    -- the bytes come behind those that are there
    have hwrite : overwrite w.length bs w = w ++ bs := by
      unfold overwrite
      rw [List.take_length, List.drop_eq_nil_of_le (Nat.le_add_right _ _), List.append_nil]
    have hcontents : (Contents.atoms t len w).write w.length bs = .atoms t len (w ++ bs) := by
      rw [Contents.write, hwrite]
    rw [← hcontents]
    exact h₁
  rw [← bind_pure (Sfs.fetch src.plain (byteCount t len))]
  refine Agree.left (ends_get.mpr ?_)
  refine Agree.quiet (becomes_log _) fun _ m₁ h₁ => ?_
  refine Agree.quiet (becomes_log _) fun _ m₂ h₂ => ?_
  have hb : Becomes m m.world m₂ := h₁.trans (h₁.world ▸ h₂)
  have hfetch := agree_fetch (R := R) (n := byteCount t len)
    (V := fun w => W.push (Contents.atoms t len w).fresh) src (h.becomes hb) hsink
    (hnew.symm.trans hb.world.symm)
  refine hfetch.bind fun bs m₃ bs' st₃ h₃ => ?_
  obtain ⟨rfl, htracks, hworld⟩ := h₃
  exact Agree.pure ⟨htracks, hworld⟩

theorem agree_decodeAtoms (h : Tracks m st) (hW : m.world.Valid) (t : AtomType) (len : ℕ) :
    Agree (GivesUp R) StopsAlike (decodeAtoms R src t len) m
      (Sfs.decodeAtoms R.toRuntime src.plain t len) st (Gives m.world) := by
  unfold decodeAtoms Sfs.decodeAtoms
  refine (agree_allocVector h t.type len).bind fun res m₁ _ st₁ h₁ => ?_
  obtain ⟨rfl, rfl, h₁⟩ := h₁
  have hvector : vector t.type len = .atoms t len [] := by cases t <;> rfl
  rw [hvector] at h₁
  refine (agree_fetchElements (h.becomes h₁) t len h₁.world).bind fun _ m₂ bs st₂ h₂ => ?_
  obtain ⟨htracks, hworld⟩ := h₂
  have hlength : (blocks t.el len bs).length = len := length_blocks _ _ _
  refine Agree.pure ⟨htracks, hworld ▸ hW.push _, hworld ▸ later_push _ _, ?_⟩
  rw [hworld]
  refine ⟨⟨Nat.le_refl _, Nat.lt_succ_self _⟩, rfl, ?_, ?_, bs, ?_, ?_⟩
  · rw [objects_push]
    rfl
  · rw [objects_push]
    rfl
  · rw [objects_push, hlength]
    rfl
  · rw [hlength]

end Rheap
end Osrv
