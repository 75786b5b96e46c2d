import Osrv.Sfs.Loaded
import Osrv.Sfs.Reads

/-!
# Loading what was stored

`SEXP.loads` proves that `sfs_load` returns `SEXP.loaded` from the bytes emitted
for a value, in front of any suffix, as long as no visited object is of a type
the decoder has no branch for. Otherwise it raises an error. The two outcomes
are carried together by `Loads`, and the proof is one mutual induction over the
value, with the nesting depth of `sfs_load` bounded by the height of the value.
-/

namespace Osrv
namespace Sfs

open Bytes

variable {α β : Type} {R : Runtime}

/-! ### Both outcomes at once -/

/-- The step loads `a` from `input`, which was stored for the objects `l`: it
reads `a` if the decoder has a branch for all of them and raises otherwise. -/
structure Loads (x : Load (List UInt8) α) (a : α) (input : List UInt8) (l : List SEXP) : Prop where
  /-- Every object accepted. -/
  reads : (∀ y ∈ l, y.rejected = false) → Reads x a input (noise l)
  /-- Some object rejected. -/
  rejects : (∃ y ∈ l, y.rejected = true) → Rejects x input

theorem accepted_or_rejected (l : List SEXP) :
    (∀ y ∈ l, y.rejected = false) ∨ ∃ y ∈ l, y.rejected = true := by
  by_cases h : ∃ y ∈ l, y.rejected = true
  · exact Or.inr h
  · refine Or.inl fun y hy => ?_
    rw [← Bool.not_eq_true]
    exact fun hr => h ⟨y, hy, hr⟩

/-- A step that reads `a` whatever happens elsewhere. -/
theorem Loads.of_reads {x : Load (List UInt8) α} {a : α} {i : List UInt8} {l : List SEXP}
    (h : Reads x a i (noise l)) (hl : ∀ y ∈ l, y.rejected = false) : Loads x a i l where
  reads _ := h
  rejects := fun ⟨y, hy, hr⟩ => absurd (hl y hy) (by rw [hr]; simp)

theorem Loads.of_rejects {x : Load (List UInt8) α} {a : α} {i : List UInt8} {l : List SEXP}
    (h : Rejects x i) (hl : ∃ y ∈ l, y.rejected = true) : Loads x a i l where
  reads := fun hacc => by
    obtain ⟨y, hy, hr⟩ := hl
    exact absurd (hacc y hy) (by rw [hr]; simp)
  rejects _ := h

theorem Loads.bind {x : Load (List UInt8) α} {f : α → Load (List UInt8) β} {a : α} {b : β}
    {i j : List UInt8} {l l' : List SEXP} (hx : Loads x a i l) (hf : Loads (f a) b j l') :
    Loads (x >>= f) b (i ++ j) (l ++ l') where
  reads := fun h => by
    rw [noise_append]
    exact (hx.reads fun y hy => h y (List.mem_append_left _ hy)).bind
      (hf.reads fun y hy => h y (List.mem_append_right _ hy))
  rejects := by
    rintro ⟨y, hy, hr⟩
    rcases accepted_or_rejected l with hacc | hrej
    · -- the first part is accepted, so the rejected object is in the second
      rcases List.mem_append.mp hy with hyl | hyl
      · exact absurd (hacc y hyl) (by rw [hr]; simp)
      · exact Rejects.after (hx.reads hacc) (hf.rejects ⟨y, hyl, hr⟩)
    · exact (hx.rejects hrej).bind j

theorem Loads.map {x : Load (List UInt8) α} {a : α} {i : List UInt8} {l : List SEXP}
    (hx : Loads x a i l) (f : α → β) : Loads (x >>= fun a => Pure.pure (f a)) (f a) i l where
  reads h := (hx.reads h).map f
  rejects h := by
    have hr := (hx.rejects h).bind (f := fun a => Pure.pure (f a)) []
    rwa [List.append_nil] at hr

/-- A step that reads `a` before one that may be rejected. -/
theorem Loads.after {x : Load (List UInt8) α} {f : α → Load (List UInt8) β} {a : α} {b : β}
    {i j : List UInt8} {l : List SEXP} (hx : Reads x a i []) (hf : Loads (f a) b j l) :
    Loads (x >>= f) b (i ++ j) l :=
  (Loads.of_reads (l := []) hx (by simp)).bind hf

/-- The order of the objects is immaterial where it does not show in the
warnings. -/
theorem Loads.congr {x : Load (List UInt8) α} {a : α} {i : List UInt8} {l m : List SEXP}
    (h : Loads x a i l) (hmem : ∀ y, y ∈ l ↔ y ∈ m) (hnoise : noise l = noise m) :
    Loads x a i m where
  reads hacc := hnoise ▸ h.reads fun y hy => hacc y ((hmem y).mp hy)
  rejects := fun ⟨y, hy, hr⟩ => h.rejects ⟨y, (hmem y).mpr hy, hr⟩

/-! ### One record -/

section OneRecord

variable {load : Load (List UInt8) SEXP}

/-- `decode_one` on the header of a record whose fields fit. -/
theorem decode_one_hdr {r : Record} (ht : ∀ ts, r.ts ≠ .unassigned ts) (hl : r.len < 2 ^ 56) :
    decode_one R fetch_buf load r.hdr = decodeSwitch R fetch_buf load r.ts.code r.len := by
  rw [decode_one, r.hdr_mod ht hl, r.hdr_shift ht hl]

theorem loadPrefix_plain {r : Record} (ht : ∀ ts, r.ts ≠ .unassigned ts)
    (ha : r.ts ≠ .ATTRSXP) (hl : r.len < 2 ^ 56) :
    loadPrefix R fetch_buf load r.hdr = pure (.nil, r.hdr) := by
  have hnot : SexpType.ofCode (r.hdr % 256) ≠ .ATTRSXP := by
    rwa [r.hdr_mod ht hl, SexpType.ofCode_code _ ht]
  rw [loadPrefix, if_neg hnot]

/-- A value without an attribute prefix: its first record decides the branch. -/
theorem loads_plain {g : Load (List UInt8) SEXP} {r : Record} {s : List UInt8} {v : SEXP}
    {l : List SEXP}
    (ht : ∀ ts, r.ts ≠ .unassigned ts) (ha : r.ts ≠ .ATTRSXP) (hl : r.len < 2 ^ 56)
    (h : Loads (decodeSwitch R fetch_buf g r.ts.code r.len) v (r.payload ++ s) l) :
    Loads (loadBody R fetch_buf g) v (r.bytes ++ s) l := by
  rw [loadBody, Record.bytes, List.append_assoc]
  refine Loads.after (reads_fetchHdr r.hdr_lt) ?_
  rw [loadPrefix_plain ht ha hl, pure_bind, decode_one_hdr ht hl]
  exact h.map id

/-- The attribute list of an object, read by the first header. -/
theorem loads_attribs {k : ℕ} {c : Cells} {i : List UInt8} {l : List SEXP} {r : Record}
    (hk : k < 2 ^ 56) (hcells : Loads (loadCells load false k) c i l) :
    Loads (loadPrefix R fetch_buf load (⟨.ATTRSXP, 0, k, none⟩ : Record).hdr) (c, r.hdr)
      (i ++ le 8 r.hdr) l := by
  let ra : Record := ⟨.ATTRSXP, 0, k, none⟩
  have hra : ∀ ts, ra.ts ≠ .unassigned ts := fun ts => by simp [ra]
  have hattr : SexpType.ofCode (ra.hdr % 256) = .ATTRSXP := by
    rw [ra.hdr_mod hra hk, SexpType.ofCode_code _ hra]
  have hlist : Loads (decode_one R fetch_buf load ra.hdr) c.toSEXP i l := by
    rw [decode_one_hdr hra hk]
    exact hcells.map Cells.toSEXP
  have hnext : Reads (fetchHdr fetch_buf >>= fun hdr' => pure (c.toSEXP.cells, hdr'))
      (c, r.hdr) (le 8 r.hdr) (noise []) := by
    rw [Cells.cells_toSEXP]
    exact (reads_fetchHdr r.hdr_lt).map fun hdr' => (c, hdr')
  have h := hlist.bind (f := fun attr => fetchHdr fetch_buf >>= fun hdr' =>
    pure (attr.cells, hdr')) (Loads.of_reads hnext (by simp))
  rw [List.append_nil] at h
  change Loads (loadPrefix R fetch_buf load ra.hdr) _ _ _
  rwa [loadPrefix, if_pos hattr]

/-- A value behind its attribute list. The object is fresh, so it takes the
attributes, and the object flag if one of them is the class. -/
theorem loads_attr {r : Record} {rest i : List UInt8} {c : Cells} {u : Datum} {k : ℕ}
    {l l' : List SEXP} (hk : k ≠ 0) (hk' : k < 2 ^ 56) (hc : c.length = k)
    (hcells : Loads (loadCells load false k) c i l)
    (ht : ∀ ts, r.ts ≠ .unassigned ts) (hl : r.len < 2 ^ 56)
    (h : Loads (decodeSwitch R fetch_buf load r.ts.code r.len) u.fresh (r.payload ++ rest) l') :
    Loads (loadBody R fetch_buf load) (.object c c.hasClass false u)
      ((⟨.ATTRSXP, 0, k, none⟩ : Record).bytes ++ (i ++ (r.bytes ++ rest))) (l ++ l') := by
  let ra : Record := ⟨.ATTRSXP, 0, k, none⟩
  have hset : Reads (if c.length ≠ 0 then setAttrib u.fresh c else pure u.fresh)
      (.object c c.hasClass false u) [] (noise []) := by
    have he : setAttrib u.fresh c =
        (pure (.object c c.hasClass false u) : Load (List UInt8) SEXP) := by
      simp only [setAttrib, Datum.fresh, Bool.or_false]
    rw [if_pos (by rwa [hc]), he]
    exact Reads.pure _
  have hobj : Loads (decode_one R fetch_buf load r.hdr >>= fun res =>
      if c.length ≠ 0 then setAttrib res c else pure res)
      (.object c c.hasClass false u) (r.payload ++ rest) l' := by
    rw [decode_one_hdr ht hl]
    have h' := h.bind (f := fun res => if c.length ≠ 0 then setAttrib res c else pure res)
      (Loads.of_reads hset (by simp))
    rwa [List.append_nil, List.append_nil] at h'
  have hbytes : ra.bytes = le 8 ra.hdr := List.append_nil _
  have hall := Loads.after (reads_fetchHdr ra.hdr_lt)
    (f := fun hdr => loadPrefix R fetch_buf load hdr >>= fun p =>
      decode_one R fetch_buf load p.2 >>= fun res =>
        if p.1.length ≠ 0 then setAttrib res p.1 else pure res)
    ((loads_attribs hk' hcells).bind hobj)
  rw [List.append_assoc] at hall
  change Loads _ _ (ra.bytes ++ (i ++ (le 8 r.hdr ++ r.payload ++ rest))) _
  rw [hbytes, List.append_assoc]
  exact hall

end OneRecord

/-! ### The leaves -/

section Leaves

theorem sizeofDecBuf_lt {n : ℕ} (h : n < sizeofDecBuf) : n < 2 ^ 56 := by
  simp only [sizeofDecBuf] at h
  omega

theorem reads_decodeAtoms {t : AtomType} {xs : List (BitVec (8 * t.el))}
    (hR : R.allocVector t.type xs.length = true) (h : xs.length < 2 ^ 56) :
    Reads (decodeAtoms R fetch_buf t xs.length) (Datum.atoms t xs).fresh (unblocks xs) [] := by
  have hfetch :
      Reads (fetch fetch_buf (xs.length * t.el % 2 ^ 64)) (unblocks xs) (unblocks xs) [] :=
    reads_fetch (by rw [length_unblocks, (payload_atoms h).2])
  have h' := (reads_allocVector hR).bind
    (f := fun _ => fetch fetch_buf (xs.length * t.el % 2 ^ 64) >>= fun bs =>
      pure (Datum.atoms t (blocks t.el xs.length bs)).fresh)
    (hfetch.map fun bs => (Datum.atoms t (blocks t.el xs.length bs)).fresh)
  rwa [blocks_unblocks] at h'

theorem loads_string {c : Charsxp} {n : ℕ} (hn : 1 ≤ n)
    (h : (CHAR c).length + 1 < sizeofDecBuf) :
    Loads (sfs_load R fetch_buf n) (.charsxp (mkChar (CHAR c))) (storeString c).bytes [] := by
  obtain ⟨n, rfl⟩ : ∃ k, n = k + 1 := ⟨n - 1, by omega⟩
  have hdec : Reads (decodeSwitch R fetch_buf (sfs_load R fetch_buf n) SexpType.CHARSXP.code
      ((CHAR c).length + 1)) (.charsxp (mkChar (CHAR c))) (CHAR c).terminated (noise []) :=
    (reads_decodeText h).map fun s => SEXP.charsxp (mkChar s)
  have hbody := loads_plain (R := R) (g := sfs_load R fetch_buf n) (s := [])
    (r := storeString c) (fun ts => by simp [storeString]) (by simp [storeString])
    (sizeofDecBuf_lt h) (v := .charsxp (mkChar (CHAR c))) (l := []) (by
      rw [storeString, payload_text .CHARSXP h, List.append_nil]
      exact Loads.of_reads hdec (by simp))
  rwa [List.append_nil] at hbody

theorem loads_loadStrings {n : ℕ} (hn : 1 ≤ n) :
    ∀ xs : List Charsxp, (∀ c ∈ xs, (CHAR c).length + 1 < sizeofDecBuf) →
      Loads (loadStrings (sfs_load R fetch_buf n) xs.length) (xs.map fun c => mkChar (CHAR c))
        (wire (xs.map storeString)) []
  | [], _ => Loads.of_reads (Reads.pure []) (by simp)
  | c :: xs, h => by
    have hx := loads_string (R := R) hn (h c (by simp))
    have hxs := loads_loadStrings hn xs fun c hc => h c (List.mem_cons_of_mem _ hc)
    exact hx.bind (hxs.map fun cs => mkChar (CHAR c) :: cs)

/-- A name that is stored as text is one that R accepts. -/
theorem reads_install {p : CString} (hp : p.bytes ≠ []) (h : p.length + 1 < sizeofDecBuf) :
    Reads (install p) (.symbol p) [] [] := by
  have h0 : p.length ≠ 0 := fun h0 => hp (List.length_eq_zero_iff.mp h0)
  have hmax : ¬ p.length > MAXIDSIZE := by
    unfold sizeofDecBuf at h
    unfold MAXIDSIZE
    omega
  have hinstall : install p = (Pure.pure (.symbol p) : Load (List UInt8) SEXP) := by
    rw [install, if_neg h0, if_neg hmax]
  rw [hinstall]
  exact Reads.pure _

/-- The empty name is stored as an empty record and comes back as
`R_MissingArg`, any other as its terminated text. -/
theorem loads_symbol (p : CString) (n : ℕ) (h : p.length + 1 < sizeofDecBuf) :
    Loads (sfs_load R fetch_buf (n + 1)) (.symbol p) (emit (.symbol p)) [.symbol p] := by
  by_cases hp : p.bytes = []
  · obtain rfl : p = CString.empty := p.eq_empty_iff.mpr hp
    exact loads_plain (g := sfs_load R fetch_buf n) (s := [])
      (r := ⟨.SYMSXP, 1, 0, some CString.empty.terminated⟩) (fun ts => by simp) (by simp)
      (by simp) (Loads.of_reads (Reads.pure _) (by simp [SEXP.rejected]))
  · have hdec : Reads (decodeSwitch R fetch_buf (sfs_load R fetch_buf n) SexpType.SYMSXP.code
        (p.length + 1)) (.symbol p) p.terminated (noise [.symbol p]) := by
      have htext : Reads (decodeText R fetch_buf .noSymbolMemory (p.length + 1)) p p.terminated
          [] := reads_decodeText h
      have hread := htext.bind (f := install) (reads_install hp h)
      rwa [List.append_nil] at hread
    have hread := loads_plain (R := R) (g := sfs_load R fetch_buf n) (s := [])
      (r := ⟨.SYMSXP, 1, p.length + 1, some p.terminated⟩) (fun ts => by simp) (by simp)
      (sizeofDecBuf_lt h) (v := .symbol p) (l := [.symbol p]) (by
        rw [payload_text .SYMSXP h, List.append_nil]
        exact Loads.of_reads hdec (by simp [SEXP.rejected]))
    rw [sfs_load]
    simpa [emit, store, hp] using hread

theorem loads_environment (e : Environment) (n : ℕ) :
    Loads (sfs_load R fetch_buf (n + 1)) (SEXP.environment e).loaded (emit (.environment e))
      [.environment e] := by
  have hcode : e.code < 2 ^ 56 := by
    cases e with
    | other id => exact Nat.two_pow_pos 56
    | _ => decide
  refine loads_plain (g := sfs_load R fetch_buf n) (r := ⟨.ENVSXP, 0, e.code, none⟩)
    (s := []) (fun ts => by simp) (by simp) hcode
    (Loads.of_reads ?_ (by simp [SEXP.rejected]))
  cases e with
  | other id =>
    -- the code of an environment that is not stored is none of the three
    intro st suffix h
    exact ⟨st.dec_buf, by rw [show suffix = st.api from h.symm]; rfl⟩
  | _ => exact Reads.pure _

end Leaves

/-! ### Whole values -/

section Values

/-- What `store` wrote for an object it visited: its sizes fit, it is not a
bare `CHARSXP`, and there is memory to load it. -/
def SEXP.Stored (R : Runtime) (x : SEXP) : Prop := x.Fits ∧ TYPEOF x ≠ .CHARSXP ∧ R.Makes x

/-- What is needed of a datum to load an object `x` that holds it: the branch
its first record leads to loads the rest of its records. -/
def Datum.Loads (R : Runtime) (n : ℕ) (x : SEXP) (u : Datum) : Prop :=
  ∃ (r : Record) (rs : List Record), storeDatum u = r :: rs ∧
    (∀ ts, r.ts ≠ .unassigned ts) ∧ r.ts ≠ .ATTRSXP ∧ r.len < 2 ^ 56 ∧
    Sfs.Loads (decodeSwitch R fetch_buf (sfs_load R fetch_buf n) r.ts.code r.len)
      u.loaded.fresh (r.payload ++ wire rs) (x :: u.nodes)

/-- The datum of an accepted object adds no rejected object of its own. -/
theorem Loads.object {x : Load (List UInt8) SEXP} {v : SEXP} {i : List UInt8} {l : List SEXP}
    {a : Cells} {o s : Bool} {u : Datum} (hu : u.rejected = false) (h : Loads x v i l) :
    Loads x v i (.object a o s u :: l) where
  reads hacc := h.reads fun y hy => hacc y (List.mem_cons_of_mem _ hy)
  rejects := by
    rintro ⟨y, hy, hr⟩
    rcases List.mem_cons.mp hy with rfl | hy
    · exact absurd hr (by simp [SEXP.rejected, hu])
    · exact h.rejects ⟨y, hy, hr⟩

mutual

/-- **Loading a stored value.** From in front of any suffix the load returns
`SEXP.loaded` with the warnings of the visited objects, unless one of them is
rejected, and then it raises an error. -/
theorem SEXP.loads : ∀ (v : SEXP) (n : ℕ), v.height ≤ n →
    (∀ x ∈ v.nodes, x.Stored R) → Loads (sfs_load R fetch_buf n) v.loaded (emit v) v.nodes
  | .NULL, n, hn, _ => by
    obtain ⟨n, rfl⟩ : ∃ k, n = k + 1 := ⟨n - 1, by simp only [SEXP.height] at hn; omega⟩
    exact loads_plain (g := sfs_load R fetch_buf n) (r := ⟨.NILSXP, 0, 0, none⟩)
      (s := []) (fun ts => by simp) (by simp) (by simp)
      (Loads.of_reads (Reads.pure _) (by simp [SEXP.rejected, SEXP.nodes]))
  | .symbol p, n, hn, h => by
    obtain ⟨n, rfl⟩ : ∃ k, n = k + 1 := ⟨n - 1, by simp only [SEXP.height] at hn; omega⟩
    exact loads_symbol p n (h _ (SEXP.mem_nodes_self _)).1
  | .charsxp c, _, _, h => absurd rfl (h _ (SEXP.mem_nodes_self _)).2.1
  | .environment e, n, hn, _ => by
    obtain ⟨n, rfl⟩ : ∃ k, n = k + 1 := ⟨n - 1, by simp only [SEXP.height] at hn; omega⟩
    exact loads_environment e n
  | .object a o s u, n, hn, h => by
    obtain ⟨n, rfl⟩ : ∃ k, n = k + 1 := ⟨n - 1, by simp only [SEXP.height] at hn; omega⟩
    have hself := h _ (SEXP.mem_nodes_self _)
    simp only [SEXP.height, Nat.add_le_add_iff_right, max_le_iff] at hn
    obtain ⟨r, rs, hrs, ht, ha, hl, hu⟩ := Datum.loads u n a o s
      hn.2 hself.1.2 hself.2.2 fun x hx => h x (by simp [SEXP.nodes, hx])
    rw [sfs_load]
    -- the records of the attributes are in front of that of the object
    by_cases hattr : u.storesAttrib = true ∧ a.length ≠ 0
    · have hcells := Cells.loads a false n (by simpa [hattr.1] using hn.1)
        fun x hx => h x (by simp [SEXP.nodes, hattr.1, hx])
      have hobj := loads_attr (u := u.loaded) hattr.2 (hself.1.1 hattr.1)
        (Cells.length_loaded false a) hcells ht hl hu
      rw [Cells.hasClass_loaded] at hobj
      have hobj' := hobj.congr (m := (SEXP.object a o s u).nodes)
        (fun y => by
          simp only [SEXP.nodes, hattr.1, if_true, List.mem_append, List.mem_cons]
          tauto)
        (by simp [SEXP.nodes, hattr.1])
      simpa [SEXP.loaded, hattr.1, emit, store, hattr.2, hrs] using hobj'
    · -- no attributes are stored: there are none, or the type does not have them stored
      have hobj := loads_plain ht ha hl hu
      cases hs : u.storesAttrib with
      | false => simpa [SEXP.loaded, hs, emit, store, hrs, SEXP.nodes] using hobj
      | true =>
        obtain rfl : a = .nil := Cells.length_eq_zero.mp (by simpa [hs] using hattr)
        simpa [SEXP.loaded, hs, emit, store, hrs, SEXP.nodes, Cells.length, Cells.loaded,
          Cells.hasClass, Cells.nodes, Datum.fresh] using hobj

theorem Datum.loads : ∀ (u : Datum) (n : ℕ) (a : Cells) (o s : Bool),
    u.height ≤ n → u.Fits → R.Makes (.object a o s u) → (∀ y ∈ u.nodes, y.Stored R) →
    u.Loads R n (.object a o s u)
  | .atoms t xs, n, a, o, s, _, hf, hR, _ => by
    have hread := reads_decodeAtoms hR hf
    refine ⟨_, [], rfl, fun ts => by cases t <;> simp [AtomType.type],
      by cases t <;> simp [AtomType.type], hf, ?_⟩
    rw [(payload_atoms hf).1, wire_nil, List.append_nil]
    cases t with
    | RAWSXP =>
      -- raw vectors have no branch: the header alone raises the error
      refine Loads.of_rejects (fun st suffix _ => ?_) ⟨_, List.mem_cons_self, rfl⟩
      exact ⟨_, st, rfl⟩
    | _ => exact Loads.of_reads hread (by simp [SEXP.rejected, Datum.rejected, Datum.nodes])
  | .strings xs, n, a, o, s, hn, hf, hR, _ => by
    have hread := loads_loadStrings (R := R) (by simpa [Datum.height] using hn) xs hf.2
    refine ⟨_, _, rfl, fun ts => by simp, by simp, hf.1, Loads.object rfl ?_⟩
    exact Loads.after (reads_allocVector hR)
      (hread.map fun cs => (Datum.strings cs).fresh)
  | .generic xs, n, a, o, s, hn, hf, hR, h => by
    have hread := elts_loads xs n hn h
    refine ⟨_, _, rfl, fun ts => by simp, by simp, hf, Loads.object rfl ?_⟩
    exact Loads.after (reads_allocVector hR)
      (hread.map fun xs => (Datum.generic xs).fresh)
  | .cons lang tag car r, n, a, o, s, hn, hf, _, h => by
    simp only [Datum.height, max_le_iff] at hn
    have h₁ := SEXP.loads tag n hn.1.1 fun x hx => h x (by simp [Datum.nodes, hx])
    have h₂ := SEXP.loads car n hn.1.2 fun x hx => h x (by simp [Datum.nodes, hx])
    have h₃ := Cells.loads r lang n hn.2 fun x hx => h x (by simp [Datum.nodes, hx])
    have hcells : Loads (loadCells (sfs_load R fetch_buf n) lang (r.length + 1))
        (.cons lang tag.loaded car.loaded (r.loaded lang))
        (emit tag ++ (emit car ++ wire (storeCells r))) (tag.nodes ++ (car.nodes ++ r.nodes)) :=
      h₁.bind (h₂.bind (h₃.map fun rest => Cells.cons lang tag.loaded car.loaded rest))
    have hread := hcells.map Cells.toSEXP
    refine ⟨_, _, rfl, fun ts => by cases lang <;> simp [Datum.type],
      by cases lang <;> simp [Datum.type], hf, Loads.object rfl ?_⟩
    simp only [Datum.nodes, wire_append, List.append_assoc]
    cases lang <;> exact hread
  | .closure f c b e, n, a, o, s, hn, _, _, h => by
    simp only [Datum.height, max_le_iff] at hn
    have h₁ := SEXP.loads f n hn.1.1 fun x hx => h x (by simp [Datum.nodes, hx])
    have h₂ := SEXP.loads b n hn.1.2 fun x hx => h x (by simp [Datum.nodes, hx])
    have h₃ := SEXP.loads e n hn.2 fun x hx => h x (by simp [Datum.nodes, hx])
    refine ⟨_, _, rfl, fun ts => by simp, by simp, by simp, Loads.object rfl ?_⟩
    simp only [Datum.nodes, wire_append, List.append_assoc]
    exact h₁.bind (h₂.bind (h₃.map fun cloenv =>
      (Datum.closure f.loaded false b.loaded cloenv).fresh))
  | .unknown t, n, a, o, s, _, _, _, _ => by
    refine ⟨_, [], rfl, fun ts => by cases t <;> simp [OpaqueType.type],
      by cases t <;> simp [OpaqueType.type], by simp, ?_⟩
    refine Loads.of_rejects (fun st suffix _ => ?_) ⟨_, List.mem_cons_self, rfl⟩
    cases t <;> exact ⟨_, st, rfl⟩

theorem Cells.loads : ∀ (c : Cells) (lang : Bool) (n : ℕ), c.height ≤ n →
    (∀ x ∈ c.nodes, x.Stored R) →
    Loads (loadCells (sfs_load R fetch_buf n) lang c.length) (c.loaded lang)
      (wire (storeCells c)) c.nodes
  | .nil, _, _, _, _ => Loads.of_reads (Reads.pure _) (by simp [Cells.nodes])
  | .cons l tag car r, lang, n, hn, h => by
    simp only [Cells.height, max_le_iff] at hn
    have h₁ := SEXP.loads tag n hn.1.1 fun x hx => h x (by simp [Cells.nodes, hx])
    have h₂ := SEXP.loads car n hn.1.2 fun x hx => h x (by simp [Cells.nodes, hx])
    have h₃ := Cells.loads r lang n hn.2 fun x hx => h x (by simp [Cells.nodes, hx])
    simp only [storeCells, Cells.nodes, wire_append, List.append_assoc]
    exact h₁.bind (h₂.bind (h₃.map fun rest => Cells.cons lang tag.loaded car.loaded rest))

theorem elts_loads : ∀ (xs : List SEXP) (n : ℕ), heightElts xs ≤ n →
    (∀ x ∈ nodesElts xs, x.Stored R) →
    Loads (loadElts (sfs_load R fetch_buf n) xs.length) (loadedElts xs)
      (wire (storeElts xs)) (nodesElts xs)
  | [], _, _, _ => Loads.of_reads (Reads.pure _) (by simp [nodesElts])
  | x :: xs, n, hn, h => by
    simp only [heightElts, max_le_iff] at hn
    have h₁ := SEXP.loads x n hn.1 fun y hy => h y (by simp [nodesElts, hy])
    have h₂ := elts_loads xs n hn.2 fun y hy => h y (by simp [nodesElts, hy])
    simp only [storeElts, nodesElts, wire_append]
    exact h₁.bind (h₂.map fun xs => x.loaded :: xs)

end

end Values

end Sfs
end Osrv
