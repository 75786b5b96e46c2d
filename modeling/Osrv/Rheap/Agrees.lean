import Osrv.Rheap.Collected
import Osrv.Rheap.Filled
import Osrv.Sfs.Faithful

/-!
# The two decoders agree

`sfs_load` over R's memory runs as `sfs_load` over values does, down to any depth
(`sfs_load_agrees`): what is returned over the memory denotes the value that is returned over
values, the errors are the same, and so is what has been read, what is in `dec_buf` and what
has been warned of. The one thing more that can happen over the memory is that there is no
room for a small object.

Thus what is known of the loads over values holds of R's objects. The three functions that
restore a value agree (`restores_agree`), and a value that has been stored comes back as an
object that denotes what it is loaded as (`stored_denoted`).
-/

namespace Osrv
namespace Rheap

open Bytes Sfs Lib

variable {σ α β : Type} {R : Runtime} {src : Source σ} {m m₁ m₂ m' : Machine σ} {st st' : Decoder σ}
  {W : World} {r c : Ref} {v : SEXP}

section Load

variable {load : Act σ Ref} {load' : Load σ SEXP} (hload : Loader R load load')
include hload

/-! ### `decode_one` -/

theorem agree_decode_one (hdr : ℕ) (h : Tracks m st) (hW : m.world.Valid) :
    Agree (GivesUp R) StopsAlike (decode_one R src load hdr) m
      (Sfs.decode_one R.toRuntime src.plain load' hdr) st (Gives m.world) := by
  unfold decode_one Sfs.decode_one decodeSwitch Sfs.decodeSwitch
  generalize hdr >>> 8 = len
  generalize hdr % 256 = ts
  -- a pairlist is its cells
  have hcells : ∀ lang, Agree (GivesUp R) StopsAlike (decodeCells R load lang len) m
      (do
        let c ← loadCells load' lang len
        return c.toSEXP) st (Gives m.world) := fun lang =>
    (agree_decodeCells hload lang len h hW).right fun _ _ _ _ hg =>
      ⟨_, _, rfl, hg.tracks, hg.valid, hg.later, hg.denotes.toSEXP⟩
  cases SexpType.ofCode ts with
  | NILSXP => exact Agree.pure ⟨h, hW, Later.refl _ _, rfl⟩
  | INTSXP => exact agree_decodeAtoms h hW .INTSXP len
  | LGLSXP => exact agree_decodeAtoms h hW .LGLSXP len
  | REALSXP => exact agree_decodeAtoms h hW .REALSXP len
  | CPLXSXP => exact agree_decodeAtoms h hW .CPLXSXP len
  | SYMSXP => exact agree_decodeSymbol h hW len
  | VECSXP =>
    refine agree_decodeElts (k := .generic) rfl (fun hawaits => ?_) h hW
    refine (agree_eltLoop hload len 0 hawaits).mono fun _ m' xs st' hxs => ?_
    obtain ⟨rs', hloaded, hxs⟩ := hxs
    exact ⟨rs', hloaded, rs', rfl, hxs⟩
  | STRSXP =>
    refine agree_decodeElts (k := .strings) rfl (fun hawaits => ?_) h hW
    refine (agree_strLoop hload len 0 hawaits).mono fun _ m' cs st' hcs => ?_
    obtain ⟨rs', hloaded, hcs⟩ := hcs
    exact ⟨rs', hloaded, rs', rfl, hcs⟩
  | CHARSXP => exact agree_decodeString h hW len
  | CLOSXP => exact agree_decodeClosure hload h hW
  | ATTRSXP => exact hcells false
  | LISTSXP => exact hcells false
  | LANGSXP => exact hcells true
  | ENVSXP => exact agree_decodeEnv h hW len
  | _ => exact agree_rf_error h _

/-! ### Attributes -/

/-- The attributes in front of a record, with the header behind them. -/
theorem agree_loadPrefix (hdr : ℕ) (h : Tracks m st) (hW : m.world.Valid) :
    Agree (GivesUp R) StopsAlike (loadPrefix R src load hdr) m
      (Sfs.loadPrefix R.toRuntime src.plain load' hdr) st
      fun p m' q st' => q.2 = p.2 ∧ GivesCells m.world p.1 m' q.1 st' := by
  unfold loadPrefix Sfs.loadPrefix
  by_cases hattr : SexpType.ofCode (hdr % 256) = .ATTRSXP
  · rw [if_pos hattr, if_pos hattr]
    have hdecode : Agree (GivesUp R) StopsAlike (decode_one R src load hdr) m
        (Sfs.decode_one R.toRuntime src.plain load' hdr) st
        fun r m' v st' => ∃ cs, v = cs.toSEXP ∧ GivesCells m.world r m' cs st' := by
      unfold decode_one Sfs.decode_one decodeSwitch Sfs.decodeSwitch
      rw [hattr]
      exact (agree_decodeCells hload false _ h hW).right fun _ _ cs _ hg =>
        ⟨_, _, rfl, cs, rfl, hg⟩
    refine hdecode.bind fun attr m₁ v st₁ h₁ => ?_
    obtain ⟨cs, rfl, h₁⟩ := h₁
    have hprotect : Ends (if attr ≠ R_NilValue then PROTECT attr else pure ()) m₁
        (fun _ m' => Becomes m₁ m₁.world m') fun _ _ => False := by
      split
      · exact becomes_PROTECT attr
      · exact becomes_pure ()
    refine Agree.quiet hprotect fun _ m₂ hb₂ => ?_
    refine (agree_fetchHdr (h₁.tracks.becomes hb₂)).bind fun hdr' m₃ hdr'' st₃ h₃ => ?_
    obtain ⟨rfl, htracks, hworld⟩ := h₃
    rw [hb₂.world] at hworld
    refine Agree.pure ⟨rfl, htracks, hworld ▸ h₁.valid, hworld ▸ h₁.later, ?_⟩
    rw [Sfs.Cells.cells_toSEXP]
    exact hworld ▸ h₁.denotes
  · rw [if_neg hattr, if_neg hattr]
    exact Agree.pure ⟨rfl, h, hW, Later.refl _ _, rfl⟩

end Load

/-- The loop over the cells sets the flag when there is a class. -/
theorem becomes_classLoop {cs : Sfs.Cells} {P : Set Ref} {c : Ref} (res : Ref)
    (hW : m.world.Valid) (n : ℕ) (hc : DenotesCells m.world cs P c) :
    Ends (classLoop res n c) m
      (fun _ m' => Becomes m (if cs.hasClass then m.world.change res fun o => { o with obj := true }
        else m.world) m') fun e _ => e = .spins := by
  induction n generalizing m cs c P with
  | zero => rfl
  | succ n ih =>
    unfold classLoop
    cases cs with
    | nil =>
      rw [if_pos (show c = R_NilValue from hc)]
      exact ⟨rfl, rfl, rfl, rfl, rfl⟩
    | cons lang tag car cdr =>
      have hne : c ≠ R_NilValue := fun h => Nat.succ_ne_zero _ ((hc.eq_nil_iff hW).mp h)
      obtain ⟨-, t, u, d, hcell, htag, -, hd⟩ := hc
      have hTAG : Ends (TAG c) m (fun t' m' => t' = t ∧ Becomes m m.world m')
          fun e _ => e = .spins := by
        refine ⟨?_, rfl, rfl, rfl, rfl, rfl⟩
        exact congrArg (fun o : Object => o.contents.tag) hcell
      have hCDR : ∀ m₁, Becomes m m.world m₁ → Ends (CDR c) m₁
          (fun d' m' => d' = d ∧ Becomes m m.world m') fun e _ => e = .spins := by
        intro m₁ hb
        refine ⟨?_, hb.world, hb.api, hb.dec_buf, hb.mallocs, hb.warnings⟩
        have hcell₁ : m₁.world.heap.objects c = (Contents.cons lang t u d).fresh := by
          rw [hb.world]
          exact hcell
        exact congrArg (fun o : Object => o.contents.cdr) hcell₁
      rw [if_neg hne]
      refine hTAG.bind (fun _ _ h => h) fun t' m₁ h₁ => ?_
      obtain ⟨rfl, hb₁⟩ := h₁
      by_cases hclass : t' = R_ClassSymbol
      -- the class is found
      · have hhas : (Sfs.Cells.cons lang tag car cdr).hasClass = true :=
          (hasClass_cons ..).mpr (Or.inl ((htag.classSymbol_iff hW).mp hclass))
        rw [if_pos hclass, if_pos hhas]
        refine (becomes_change res _).mono (fun _ m₂ hb₂ => ?_) fun _ _ h => h.elim
        rw [hb₁.world] at hb₂
        exact hb₁.trans hb₂
      -- it is looked for behind this cell
      · have hhas : (Sfs.Cells.cons lang tag car cdr).hasClass = cdr.hasClass := by
          rw [Bool.eq_iff_iff, hasClass_cons, or_iff_right]
          exact fun h => hclass ((htag.classSymbol_iff hW).mpr h)
        rw [if_neg hclass, hhas]
        refine (hCDR m₁ hb₁).bind (fun _ _ h => h) fun d' m₂ h₂ => ?_
        obtain ⟨rfl, hb₂⟩ := h₂
        have hW₂ : m₂.world.Valid := hb₂.world ▸ hW
        refine (ih hW₂ (hb₂.world ▸ hd)).mono (fun _ m₃ hb₃ => ?_) fun _ _ h => h
        rw [hb₂.world] at hb₃
        exact hb₂.trans hb₃

/-- What the attributes change of the object they are given to. -/
theorem becomes_setAttributes {cs : Sfs.Cells} {P : Set Ref} {res attr : Ref} (hdr : ℕ)
    (hW : m.world.Valid) (hattr : DenotesCells m.world cs P attr) :
    Ends (setAttributes hdr attr res) m
      (fun _ m' => Becomes m
        (m.world.change res fun o => { o with attrib := attr, obj := cs.hasClass || o.obj }) m')
      fun e _ => e = .spins := by
  unfold setAttributes
  rw [ends_bind, ends_get]
  refine (becomes_log _).bind (fun _ _ h => h.elim) fun _ m₁ hb₁ => ?_
  have hclass := becomes_classLoop res (hb₁.world ▸ hW) (m.heap.top + 1) (hb₁.world ▸ hattr)
  rw [hb₁.world] at hclass
  refine hclass.bind (fun _ _ h => h) fun _ m₂ hb₂ => ?_
  refine (becomes_PROTECT res).bind (fun _ _ h => h.elim) fun _ m₃ hb₃ => ?_
  have hset : Ends (SET_ATTRIB res attr) m₃
      (fun _ m' => Becomes m₃ (m₃.world.change res fun o => { o with attrib := attr }) m')
      fun _ _ => False := ⟨rfl, rfl, rfl, rfl, rfl⟩
  refine hset.bind (fun _ _ h => h.elim) fun _ m₄ hb₄ => ?_
  refine (becomes_UNPROTECT 2).mono (fun _ m₅ hb₅ => ?_) fun _ _ h => h.elim
  have hb := ((hb₁.trans hb₂).trans hb₃).trans (hb₄.trans hb₅)
  rw [hb₄.world, hb₃.world, hb₂.world] at hb
  -- both changes of the header in one
  cases hhas : cs.hasClass with
  | true =>
    rw [if_pos hhas, change_change] at hb
    exact hb
  | false =>
    rw [if_neg (Bool.not_eq_true _ ▸ hhas)] at hb
    exact hb

/-- The object that has been loaded gets the attributes that were in front of it. -/
theorem GivesCells.attributed {cs : Sfs.Cells} {res attr : Ref} {st₁ : Decoder σ}
    (h₁ : GivesCells W attr m₁ cs st₁) (h₂ : Gives m₁.world res m₂ v st)
    (hb : Becomes m₂ (m₂.world.change res fun o =>
      { o with attrib := attr, obj := cs.hasClass || o.obj }) m') :
    ∃ v' st', setAttrib v cs st = .ok v' st' ∧ Gives W res m' v' st' := by
  have hlater := h₁.later.trans h₂.later fun _ h _ => h
  have htop := h₁.later.top
  by_cases hv : ∀ a o s4 u, v ≠ .object a o s4 u
  -- R shares the object, which is not another one for it
  · have hshared := h₂.denotes.shared h₂.valid hv
    have hheader : Later ∅ m₂.world m'.world := by
      rw [hb.world]
      exact later_header hshared fun _ => rfl
    have hvalid : m'.world.Valid := h₂.valid.later hheader (fun _ h => h.elim) fun k s r hr =>
      Or.inl (by rw [hb.world] at hr; exact hr)
    have hset : setAttrib v cs st = .ok v { st with shared := st.shared ++ [(v, cs)] } := by
      cases v with
      | object a o s4 u => exact absurd rfl (hv a o s4 u)
      | _ => rfl
    have htracks := h₂.tracks.becomes hb
    refine ⟨_, _, hset, ⟨htracks.api, htracks.dec_buf, htracks.mallocs, htracks.warnings⟩, hvalid,
      hlater.trans hheader fun _ h _ => h, ?_⟩
    exact (h₂.denotes.later hheader fun _ h => h.elim).widen htop
  · push Not at hv
    -- an object of its own takes the attributes in place
    obtain ⟨a, o, s4, u, rfl⟩ := hv
    have howned := h₂.denotes.owned
    obtain ⟨⟨hnew, hlt⟩, rfl, hobj, -, hu⟩ := h₂.denotes
    have hchange : Later {res} m₂.world m'.world := by
      rw [hb.world]
      exact later_change _ _
    have hself : m'.world.heap.objects res
        = { m₂.world.heap.objects res with
            attrib := attr, obj := cs.hasClass || (m₂.world.heap.objects res).obj } := by
      rw [hb.world]
      exact objects_change _ _ _
    have hvalid : m'.world.Valid := by
      rw [hb.world]
      exact h₂.valid.change howned _
    -- the attributes are older than the object, and the object is no part of itself
    have hattr : Kept m₁.world m'.world (Set.Ico W.heap.top m₁.world.heap.top) := by
      have hboth := (h₂.later.mono (Set.empty_subset _)).trans hchange fun _ h _ => h
      exact hboth.kept fun q hq => ⟨hq.2, (Nat.lt_of_lt_of_le hq.2 hnew).ne⟩
    have hparts : Kept m₂.world m'.world
        (Set.Ico m₁.world.heap.top m₂.world.heap.top \ {res}) :=
      hchange.kept fun q hq => ⟨hq.1.2, hq.2⟩
    have hlt' : res < m'.world.heap.top := Nat.lt_of_lt_of_le hlt hchange.top
    have hattrSub : Set.Ico W.heap.top m₁.world.heap.top
        ⊆ Set.Ico W.heap.top m'.world.heap.top \ {res} := fun q hq =>
      ⟨⟨hq.1, (Nat.lt_of_lt_of_le hq.2 hnew).trans hlt'⟩, (Nat.lt_of_lt_of_le hq.2 hnew).ne⟩
    have hpartsSub : Set.Ico m₁.world.heap.top m₂.world.heap.top \ {res}
        ⊆ Set.Ico W.heap.top m'.world.heap.top \ {res} := fun q hq =>
      ⟨⟨htop.trans hq.1.1, Nat.lt_of_lt_of_le hq.1.2 hchange.top⟩, hq.2⟩
    refine ⟨_, _, rfl, h₂.tracks.becomes hb, hvalid, ?_, ⟨htop.trans hnew, hlt'⟩, rfl, ?_, ?_, ?_⟩
    · refine hlater.trans hchange fun q hq hold => ?_
      exact absurd (hq ▸ hold) (Nat.not_lt.mpr (htop.trans hnew))
    · rw [hself, hobj]
    · rw [hself]
      exact h₁.denotes.kept hattr hattrSub
    · rw [hself]
      exact hu.kept hparts hpartsSub

/-! ### `sfs_load` -/

section Load

variable {load : Act σ Ref} {load' : Load σ SEXP}

theorem agree_loadBody (hload : Loader R load load') :
    Loader R (loadBody R src load) (Sfs.loadBody R.toRuntime src.plain load') := by
  intro m st h hW
  refine (agree_fetchHdr h).bind fun hdr m₁ hdr' st₁ h₁ => ?_
  obtain ⟨rfl, htracks₁, hworld₁⟩ := h₁
  refine (agree_loadPrefix hload hdr' htracks₁ (hworld₁ ▸ hW)).bind fun p m₂ q st₂ h₂ => ?_
  obtain ⟨hhdr, h₂⟩ := h₂
  rw [hworld₁] at h₂
  rw [hhdr]
  refine (agree_decode_one hload p.2 h₂.tracks h₂.valid).bind fun res m₃ v st₃ h₃ => ?_
  by_cases hattr : p.1 = R_NilValue
  -- there are no attributes
  · have hlength : q.1.length = 0 := (h₂.denotes.eq_nil_iff h₂.valid).mp hattr
    rw [if_neg (not_not.mpr hattr), if_neg (not_not.mpr hlength)]
    refine Agree.quiet (becomes_pure ()) fun _ m₄ hb₄ => ?_
    refine Agree.quiet (becomes_log (.use res)) fun _ m₅ hb₅ => Agree.pure ?_
    have hb := hb₄.trans (hb₄.world ▸ hb₅)
    refine ⟨h₃.tracks.becomes hb, hb.world ▸ h₃.valid, ?_, ?_⟩
    · rw [hb.world]
      exact h₂.later.trans h₃.later fun _ h _ => h
    · rw [hb.world]
      exact h₃.denotes.widen h₂.later.top
  · have hlength : q.1.length ≠ 0 := fun h => hattr ((h₂.denotes.eq_nil_iff h₂.valid).mpr h)
    rw [if_pos hattr, if_pos hlength]
    have hcells : DenotesCells m₃.world q.1
        (Set.Ico m.world.heap.top m₂.world.heap.top) p.1 :=
      h₂.denotes.kept (h₃.later.kept fun q hq => ⟨hq.2, Set.notMem_empty q⟩) (Set.Subset.refl _)
    refine Agree.step (becomes_setAttributes p.2 h₃.valid hcells) (fun _ _ h => Or.inl h)
      fun _ m₄ hb₄ => ?_
    refine Agree.quiet (becomes_log (.use res)) fun _ m₅ hb₅ => ?_
    obtain ⟨v', st', hset, hg⟩ := h₂.attributed h₃ (hb₄.trans (hb₄.world ▸ hb₅))
    exact ⟨v', st', hset, hg⟩

end Load

/-- The two decoders run alike down to any depth. -/
theorem agree_sfs_load (R : Runtime) (src : Source σ) (depth : ℕ) :
    Loader R (sfs_load R src depth) (Sfs.sfs_load R.toRuntime src.plain depth) := by
  induction depth with
  | zero => exact fun m st _ _ => Agree.throw trivial
  | succ depth ih => exact agree_loadBody ih

/-! ### Sessions -/

/-- A session as R starts it: the fixed objects are what they stand for, and the symbol
`class` is found by its name. -/
structure Session.Standard (S : Session) : Prop where
  missing : (S.heap.objects R_MissingArg).contents = .symbol CString.empty
  environment : ∀ e r, environmentRef e = some r → ∃ refs, (S.heap.objects r).contents = .other refs
  classSymbol : S.interned .symbol className = some R_ClassSymbol

theorem Session.Standard.valid {S : Session} (h : S.Standard) : S.world.Valid where
  fixed := S.fixed
  null := S.null
  missing := h.missing
  environment := h.environment
  classSymbol := h.classSymbol
  named k s r hr := ⟨S.interned_lt k s r hr, S.named k s r hr⟩

theorem Session.bare_standard : Session.bare.Standard where
  missing := rfl
  environment e r he := by
    cases e with
    | other id => cases he
    | _ =>
      cases he
      exact ⟨[], rfl⟩
  classSymbol := rfl

/-- How a load over R's memory ends beside a load over values. When both return, the object
denotes the value, and what it consists of is not older than `base` but for the objects R
shares. When both stop, it is for the same reason. In either case they have read as much, and
have the same in `dec_buf` and the same warnings. Only a load over R's memory can run out of
room for a small object. -/
inductive SameEnd (R : Runtime) (base : Ref) : EStateM.Result Stop (Machine σ) Ref →
    EStateM.Result Sfs.Stop (Decoder σ) SEXP → Prop
  | value (r : Ref) (m : Machine σ) (v : SEXP) (st : Decoder σ)
      (denotes : Denotes m.world v (Set.Ico base m.heap.top) r) (tracks : Tracks m st) :
      SameEnd R base (.ok r m) (.ok v st)
  | rerror (e : RError) (m : Machine σ) (st : Decoder σ) (tracks : Tracks m st) :
      SameEnd R base (.error (.rerror e) m) (.error (.rerror e) st)
  | tooDeep (m : Machine σ) (st : Decoder σ) :
      SameEnd R base (.error .tooDeep m) (.error .tooDeep st)
  | memory (m : Machine σ) (y : EStateM.Result Sfs.Stop (Decoder σ) SEXP) (top : ℕ)
      (hcell : R.cell top = false) : SameEnd R base (.error .memory m) y

section Sessions

variable {S : Session} (hS : S.Standard)
include hS

/-- **The two decoders agree**, over any callback and down to any depth. -/
theorem sfs_load_agrees (R : Runtime) (src : Source σ) (s : σ) (dec_buf : List UInt8)
    (depth : ℕ) :
    SameEnd R S.heap.top (sfs_load R src depth (.start S s dec_buf))
      (Sfs.sfs_load R.toRuntime src.plain depth (.on s dec_buf)) := by
  have hagree := agree_sfs_load R src depth (.start S s dec_buf) (.on s dec_buf)
    ⟨rfl, rfl, rfl, rfl⟩ hS.valid
  have hends := protected_sfs_load R src depth _ (S.ok_start s dec_buf)
  cases hrun : sfs_load R src depth (.start S s dec_buf) with
  | ok r m =>
    obtain ⟨v, st, hright, hg⟩ := Ends.ok hagree hrun
    rw [hright]
    exact .value r m v st hg.denotes hg.tracks
  | error e m =>
    obtain hgives | ⟨d, st, hright, halike⟩ := Ends.error hagree hrun
    -- the loop over the attributes comes to an end
    · obtain rfl | ⟨rfl, top, hcell⟩ := hgives
      · exact absurd rfl (hends.error hrun).1
      · exact .memory m _ top hcell
    · rw [hright]
      cases e with
      | rerror e =>
        cases d with
        | rerror d =>
          obtain ⟨rfl, htracks⟩ := halike
          exact .rerror e m st htracks
        | tooDeep => exact halike.elim
      | tooDeep =>
        cases d with
        | rerror d => exact halike.elim
        | tooDeep => exact .tooDeep m st
      | memory => exact halike.elim
      | spins => exact halike.elim

/-- A value that has been stored comes back in R's memory, when there is room for it: as an
object that denotes what the value is loaded as, with the bytes behind it unread. -/
theorem stored_denoted {R : Runtime} (hcell : ∀ top, R.cell top = true) {v : SEXP}
    (hR : R.toRuntime.Allocates v) (hv : Storable v) (hnodes : ∀ x ∈ v.nodes, x.rejected = false)
    (suffix dec_buf : List UInt8) :
    ∃ r m, sfs_load R Mem.fetch ((emit v ++ suffix).length + 1)
        (.start S (emit v ++ suffix) dec_buf) = .ok r m ∧
      Denotes m.world v.loaded (Set.Ico S.heap.top m.heap.top) r ∧
      m.api = suffix ∧ m.warnings = noise v.nodes := by
  obtain ⟨db, hvalue⟩ := (restore_stored hR hv suffix dec_buf).1 hnodes
  have hagree := sfs_load_agrees hS R Mem.fetch (emit v ++ suffix) dec_buf
    ((emit v ++ suffix).length + 1)
  rw [Mem.plain_fetch] at hagree
  change SameEnd R S.heap.top _ (C_mem_restore R.toRuntime (emit v ++ suffix) dec_buf) at hagree
  rw [hvalue] at hagree
  cases hrun : sfs_load R Mem.fetch ((emit v ++ suffix).length + 1)
      (.start S (emit v ++ suffix) dec_buf) with
  | ok r m =>
    rw [hrun] at hagree
    obtain ⟨_, _, _, _, hdenotes, htracks⟩ := hagree
    exact ⟨r, m, rfl, hdenotes, htracks.api, htracks.warnings⟩
  | error e m =>
    rw [hrun] at hagree
    obtain _ | _ | _ | ⟨_, _, top, hfull⟩ := hagree
    rw [hcell] at hfull
    cases hfull

/-- **Restoring a value.** `C_mem_restore`, `fd_restore` and `sock_restore` over R's memory
end as they do over values, whatever the bytes are and however they arrive. -/
theorem restores_agree (R : Runtime) (dec_buf : List UInt8) :
    (∀ bytes, SameEnd R S.heap.top
      (sfs_load R Mem.fetch (bytes.length + 1) (.start S bytes dec_buf))
      (C_mem_restore R.toRuntime bytes dec_buf)) ∧
    ∀ depth d,
      SameEnd R S.heap.top (sfs_load R Fd.fetch depth (.start S d dec_buf))
        (fd_restore R.toRuntime depth d dec_buf) ∧
      SameEnd R S.heap.top (sfs_load R Sock.fetch depth (.start S d dec_buf))
        (sock_restore R.toRuntime depth d dec_buf) := by
  refine ⟨fun bytes => ?_, fun depth d => ⟨?_, ?_⟩⟩
  · have hagree := sfs_load_agrees hS R Mem.fetch bytes dec_buf (bytes.length + 1)
    rw [Mem.plain_fetch] at hagree
    exact hagree
  · have hagree := sfs_load_agrees hS R Fd.fetch d dec_buf depth
    rw [Fd.plain_fetch] at hagree
    exact hagree
  · have hagree := sfs_load_agrees hS R Sock.fetch d dec_buf depth
    rw [Sock.plain_fetch] at hagree
    exact hagree

end Sessions

theorem Runtime.ample_allocates (v : SEXP) : Runtime.ample.Allocates v := by
  intro x _
  unfold Runtime.Makes
  split
  all_goals first | rfl | trivial

/-- `c(a = 1L)`, with a byte behind it that is not read. -/
theorem restores_agree_named :
    SameEnd .ample Session.bare.heap.top
        (sfs_load .ample Mem.fetch ((emit namedInteger ++ [7]).length + 1)
          (.start .bare (emit namedInteger ++ [7]) []))
        (C_mem_restore Runtime.ample.toRuntime (emit namedInteger ++ [7]) []) ∧
      ∃ r m, sfs_load .ample Mem.fetch ((emit namedInteger ++ [7]).length + 1)
          (.start .bare (emit namedInteger ++ [7]) []) = .ok r m ∧
        Denotes m.world namedInteger (Set.Ico Session.bare.heap.top m.heap.top) r ∧
        m.api = [7] ∧ m.warnings = [] := by
  have hagree := (restores_agree Session.bare_standard .ample []).1 (emit namedInteger ++ [7])
  -- it has no raw vector
  have hnodes : ∀ x ∈ namedInteger.nodes, x.rejected = false := by
    rw [namedInteger_nodes]
    simp only [List.forall_mem_cons]
    exact ⟨rfl, rfl, rfl, by simp⟩
  obtain ⟨r, m, hrun, hdenotes, hapi, hwarnings⟩ := stored_denoted Session.bare_standard
    (R := .ample) (fun _ => rfl) (Runtime.ample_allocates namedInteger) storable_namedInteger
    hnodes [7] []
  exact ⟨hagree, r, m, hrun, hdenotes, hapi, hwarnings⟩

end Rheap
end Osrv
