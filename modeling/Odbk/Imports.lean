import Odbk.PeImage

/-!
# The imports of a mapped image

`odbk_get_imports` checks the headers of an image and walks its import descriptors. Its
pointers are made by `MAKE_PTR`, which adds as `DWORD`s. Proved here:

* `makePtr_eq_iff`: a pointer so made is exact exactly when it is below 4 GiB;
* `importLoop_result`, `importLoop_exactAt_iff`: the loop over the descriptors;
* `imports_exact_iff`: when the imports of an image are read exactly;
* `getImports_refines`: the imports of a loaded module are those of its image.
-/

namespace Odbk

open ByteMemory

variable {b : Build}

/-! ## The code -/

/-- `MAKE_PTR` -/
def makePtr (hModule : BitVec b.bits) (addValue : BitVec 32) : BitVec b.bits :=
  truncAdd hModule addValue

/-- `IMAGE_DOS_SIGNATURE` -/
def imageDosSignature : BitVec 16 := 0x5A4D

/-- `IMAGE_NT_SIGNATURE` -/
def imageNtSignature : BitVec 32 := 0x4550

/-- `PEHeaderFromHModule`. The handler of `__except` is empty, so after a fault the
pointer is returned as it was assigned. -/
def peHeaderFromHModule (m : Memory b.bits) (hModule : BitVec b.bits) :
    Access b.bits (BitVec b.bits) := do
  match ← (m.readWord 2 0 hModule).attempt with
  | none => return 0
  | some eMagic =>
    if eMagic ≠ imageDosSignature then return 0
    else
      match ← (m.readWord 4 0x3C (hModule + 0x3C)).attempt with
      | none => return 0
      | some eLfanew =>
        let pNTHeader := hModule + eLfanew.signExtend b.bits
        match ← (m.readWord 4 (BitVec.toInt eLfanew) pNTHeader).attempt with
        | none => return pNTHeader
        | some signature => if signature ≠ imageNtSignature then return 0 else return pNTHeader

/-- The loop over the descriptors; `offset` is where the descriptor is in the image. -/
def importLoop (m : Memory b.bits) (hModule : BitVec b.bits) :
    Nat → Int → BitVec b.bits → List (List UInt8) → Access b.bits (List (List UInt8))
  | 0, _, _, _ => Access.diverge
  | fuel + 1, offset, pImportDesc, imports => do
    let firstThunk ← m.readWord 4 (offset + 16) (pImportDesc + 16)
    if firstThunk = 0 then return imports
    else
      let name ← m.readWord 4 (offset + 12) (pImportDesc + 12)
      let pszImportModuleName ← m.readString (BitVec.toNat name) (makePtr hModule name)
      importLoop m hModule fuel (offset + 20) (pImportDesc + 20)
        (imports ++ [pszImportModuleName])

/-- Where the RVA of the import table is, in the image. -/
def importEntry (pNTHeader : BitVec b.bits) : BitVec b.bits :=
  pNTHeader + BitVec.ofNat _ (b.dataDirectory + 8)

/-- `odbk_get_imports`. A loop that passed as many descriptors as there are addresses
goes on for ever. -/
def getImports (m : Memory b.bits) (hModule : BitVec b.bits) (imports : List (List UInt8)) :
    Access b.bits (Bool × List (List UInt8)) := do
  let pExeNTHdr ← peHeaderFromHModule m hModule
  if pExeNTHdr = 0 then return (false, imports)
  else
    let importRVA ←
      m.readWord 4 (importEntry pExeNTHdr - hModule).toInt (importEntry pExeNTHdr)
    if importRVA = 0 then return (false, imports)
    else
      let imports ← importLoop m hModule (2 ^ b.bits) (BitVec.toNat importRVA)
        (makePtr hModule importRVA) imports
      return (true, imports)

/-! ## Pointers -/

/-- **`MAKE_PTR`** is exact below 4 GiB only. -/
theorem makePtr_eq_iff (hModule : BitVec b.bits) (rva : BitVec 32) :
    makePtr hModule rva = rvaAddress hModule rva ↔ (rvaAddress hModule rva).toNat < 2 ^ 32 :=
  truncAdd_eq_iff b.le_bits hModule rva

/-- The 32-bit build loses nothing. -/
theorem makePtr_x86 (hModule : BitVec (Build.bits .x86)) (rva : BitVec 32) :
    makePtr (b := .x86) hModule rva = rvaAddress (b := .x86) hModule rva :=
  (makePtr_eq_iff hModule rva).mpr (rvaAddress (b := .x86) hModule rva).isLt

theorem rvaAddress_eq_ofInt (hModule : BitVec b.bits) (rva : BitVec 32) :
    rvaAddress hModule rva = hModule + BitVec.ofInt b.bits rva.toNat := by
  rw [rvaAddress, BitVec.ofInt_natCast, BitVec.ofNat_toNat]

/-! ## The headers -/

/-- A valid DOS header, and a valid NT signature where it points. -/
structure PeHeaderAt (m : Memory b.bits) (base : BitVec b.bits) (eLfanew : BitVec 32) : Prop where
  magic : m.word 2 base = some imageDosSignature
  lfanew : m.word 4 (base + 0x3C) = some eLfanew
  signature : m.word 4 (base + eLfanew.signExtend b.bits) = some imageNtSignature

/-- The NT headers cannot be read, and yet are taken for some. -/
structure UnreadableAt (m : Memory b.bits) (base : BitVec b.bits) (eLfanew : BitVec 32) :
    Prop where
  magic : m.word 2 base = some imageDosSignature
  lfanew : m.word 4 (base + 0x3C) = some eLfanew
  signature : m.word 4 (base + eLfanew.signExtend b.bits) = none
  nonzero : base + eLfanew.signExtend b.bits ≠ 0

theorem PeHeaderAt.nonzero {m : Memory b.bits} {base : BitVec b.bits} {eLfanew : BitVec 32}
    (h : PeHeaderAt m base eLfanew) : base + eLfanew.signExtend b.bits ≠ 0 := by
  intro hz
  have hs := h.signature
  rw [hz, m.word_null] at hs
  cases hs

/-- Behind a valid DOS header only the signature counts. -/
theorem peHeader_dos {m : Memory b.bits} {base : BitVec b.bits}
    (hm : m.word 2 base = some imageDosSignature) :
    (peHeaderFromHModule m base).result =
      match m.word 4 (base + 0x3C) with
      | none => some 0
      | some eLfanew =>
        match m.word 4 (base + BitVec.signExtend b.bits eLfanew) with
        | none => some (base + BitVec.signExtend b.bits eLfanew)
        | some signature =>
          if signature = imageNtSignature then some (base + BitVec.signExtend b.bits eLfanew)
          else some 0 := by
  simp only [peHeaderFromHModule, Access.result_bind, Access.result_attempt, result_readWord, hm,
    Option.bind_some, ne_eq, not_true_eq_false, if_false]
  cases m.word 4 (base + 0x3C) with
  | none => rfl
  | some eLfanew =>
    simp only [Access.result_bind, Access.result_attempt, result_readWord, Option.bind_some]
    cases m.word 4 (base + BitVec.signExtend b.bits eLfanew) with
    | none => rfl
    | some signature =>
      by_cases hn : signature = imageNtSignature
      · simp only [hn, not_true_eq_false, if_false, if_true, Access.result_pure]
      · simp only [hn, not_false_eq_true, if_false, if_true, Access.result_pure]

theorem peHeader_of_pe {m : Memory b.bits} {base : BitVec b.bits} {eLfanew : BitVec 32}
    (h : PeHeaderAt m base eLfanew) :
    (peHeaderFromHModule m base).result = some (base + eLfanew.signExtend b.bits) := by
  rw [peHeader_dos h.magic, h.lfanew]
  simp only [h.signature, if_true]

theorem peHeader_of_unreadable {m : Memory b.bits} {base : BitVec b.bits} {eLfanew : BitVec 32}
    (h : UnreadableAt m base eLfanew) :
    (peHeaderFromHModule m base).result = some (base + eLfanew.signExtend b.bits) := by
  rw [peHeader_dos h.magic, h.lfanew]
  simp only [h.signature]

/-- **No PE image** gives null, unless its NT headers cannot be read. -/
theorem peHeader_of_notPe {m : Memory b.bits} {base : BitVec b.bits}
    (hno : ∀ eLfanew, ¬PeHeaderAt m base eLfanew) :
    (∃ eLfanew, UnreadableAt m base eLfanew) ∨ (peHeaderFromHModule m base).result = some 0 := by
  by_cases hm : m.word 2 base = some imageDosSignature
  · cases hl : m.word 4 (base + 0x3C) with
    | none => exact Or.inr (by rw [peHeader_dos hm, hl])
    | some eLfanew =>
      cases hs : m.word 4 (base + BitVec.signExtend b.bits eLfanew) with
      | none =>
        by_cases hz : base + BitVec.signExtend b.bits eLfanew = 0
        · refine Or.inr ?_
          rw [peHeader_dos hm, hl]
          simp only [hs]
          rw [hz]
        · exact Or.inl ⟨eLfanew, hm, hl, hs, hz⟩
      | some signature =>
        have hne : signature ≠ imageNtSignature := fun hn => hno eLfanew ⟨hm, hl, hn ▸ hs⟩
        refine Or.inr ?_
        rw [peHeader_dos hm, hl]
        simp only [hs, if_neg hne]
  · refine Or.inr ?_
    cases h : m.word 2 base with
    | none => simp [peHeaderFromHModule, h]
    | some eMagic =>
      have hne : eMagic ≠ imageDosSignature := fun he => hm (he ▸ h)
      simp [peHeaderFromHModule, h, hne]

/-- Its own pointers are exact. -/
theorem peHeader_exact (m : Memory b.bits) (base : BitVec b.bits) :
    (peHeaderFromHModule m base).ExactAt base := by
  unfold peHeaderFromHModule
  refine exactAt_bind.mpr ⟨exactAt_attempt.mpr ((exactAt_readWord ..).mpr (by simp)), ?_⟩
  intro r _
  cases r with
  | none => exact exactAt_pure _
  | some eMagic =>
    dsimp only
    split
    case isTrue => exact exactAt_pure _
    case isFalse =>
      refine exactAt_bind.mpr ⟨exactAt_attempt.mpr ((exactAt_readWord ..).mpr rfl), ?_⟩
      intro r _
      cases r with
      | none => exact exactAt_pure _
      | some eLfanew =>
        refine exactAt_bind.mpr ⟨exactAt_attempt.mpr ((exactAt_readWord ..).mpr rfl), ?_⟩
        intro r _
        cases r with
        | none => exact exactAt_pure _
        | some signature =>
          dsimp only
          split <;> exact exactAt_pure _

/-! ## The descriptors -/

/-- At `a` lie descriptors with these names and RVAs of names, and then the last one. -/
def Descriptors (m : Memory b.bits) (hModule : BitVec b.bits) :
    BitVec b.bits → List (BitVec 32 × List UInt8) → Prop
  | a, [] => m.word 4 (a + 16) = some 0
  | a, (rva, name) :: l =>
    (∃ firstThunk, m.word 4 (a + 16) = some firstThunk ∧ firstThunk ≠ 0) ∧
      m.word 4 (a + 12) = some rva ∧ m.string (rvaAddress hModule rva) = some name ∧
      Descriptors m hModule (a + 20) l

theorem exact_add_iff {base a : BitVec b.bits} {offset : Int} (k : Nat) :
    a + BitVec.ofNat b.bits k = base + BitVec.ofInt b.bits (offset + k) ↔
      a = base + BitVec.ofInt b.bits offset := by
  rw [BitVec.ofInt_add, BitVec.ofInt_natCast, ← BitVec.add_assoc, BitVec.add_left_inj]

section Loop

variable {m : Memory b.bits} {base : BitVec b.bits} {fuel : Nat} {offset : Int} {a : BitVec b.bits}
  {imports : List (List UInt8)}

/-- The last descriptor ends the loop. -/
theorem importLoop_last (hend : m.word 4 (a + 16) = some 0) :
    (importLoop m base (fuel + 1) offset a imports).result = some imports ∧
      ((importLoop m base (fuel + 1) offset a imports).ExactAt base ↔
        a = base + BitVec.ofInt b.bits offset) := by
  constructor
  · simp only [importLoop, Access.result_bind, result_readWord, hend, Option.bind_some, if_true,
      Access.result_pure]
  · rw [importLoop, exactAt_bind, exactAt_readWord]
    constructor
    · exact fun h => (exact_add_iff 16).mp h.1
    · intro ha
      refine ⟨(exact_add_iff 16).mpr ha, fun t ht => ?_⟩
      rw [result_readWord, hend, Option.some.injEq] at ht
      rw [← ht, if_pos rfl]
      exact exactAt_pure _

/-- What the loop returns behind a descriptor with a name. -/
theorem importLoop_result_next {firstThunk : BitVec 32}
    (hthunk : m.word 4 (a + 16) = some firstThunk) (hne : firstThunk ≠ 0)
    {rva : BitVec 32} (hrva : m.word 4 (a + 12) = some rva) {name : List UInt8}
    (hname : m.string (makePtr base rva) = some name) :
    (importLoop m base (fuel + 1) offset a imports).result =
      (importLoop m base fuel (offset + 20) (a + 20) (imports ++ [name])).result := by
  simp only [importLoop, Access.result_bind, result_readWord, hthunk, Option.bind_some, hne,
    if_false, hrva, result_readString, hname]

/-- The pointers of the loop at a descriptor with a name, and behind it. -/
theorem importLoop_exactAt_next {firstThunk : BitVec 32}
    (hthunk : m.word 4 (a + 16) = some firstThunk) (hne : firstThunk ≠ 0)
    {rva : BitVec 32} (hrva : m.word 4 (a + 12) = some rva) :
    (importLoop m base (fuel + 1) offset a imports).ExactAt base ↔
      a = base + BitVec.ofInt b.bits offset ∧ makePtr base rva = rvaAddress base rva ∧
        ∀ name, m.string (makePtr base rva) = some name →
          (importLoop m base fuel (offset + 20) (a + 20) (imports ++ [name])).ExactAt base := by
  rw [importLoop, exactAt_bind, exactAt_readWord]
  constructor
  · rintro ⟨ha, h⟩
    have h₁ := h firstThunk hthunk
    rw [if_neg hne] at h₁
    obtain ⟨hstring, hnext⟩ := exactAt_bind.mp ((exactAt_bind.mp h₁).2 rva hrva)
    rw [exactAt_readString, ← rvaAddress_eq_ofInt] at hstring
    exact ⟨(exact_add_iff 16).mp ha, hstring, hnext⟩
  · rintro ⟨ha, hptr, hnext⟩
    refine ⟨(exact_add_iff 16).mpr ha, fun t ht => ?_⟩
    rw [result_readWord, hthunk, Option.some.injEq] at ht
    rw [← ht, if_neg hne]
    refine exactAt_bind.mpr
      ⟨(exactAt_readWord ..).mpr ((exact_add_iff 12).mpr ha), fun r hr => ?_⟩
    rw [result_readWord, hrva, Option.some.injEq] at hr
    rw [← hr]
    refine exactAt_bind.mpr ⟨(exactAt_readString ..).mpr ?_, hnext⟩
    rw [hptr, rvaAddress_eq_ofInt]

/-- **What the loop returns** on exact pointers: the names of the descriptors. -/
theorem importLoop_result {descs : List (BitVec 32 × List UInt8)} (hd : Descriptors m base a descs)
    (hfuel : descs.length < fuel) (hp : ∀ d ∈ descs, makePtr base d.1 = rvaAddress base d.1) :
    (importLoop m base fuel offset a imports).result = some (imports ++ descs.map Prod.snd) := by
  induction descs generalizing fuel offset a imports with
  | nil =>
    obtain ⟨fuel, rfl⟩ := Nat.exists_eq_succ_of_ne_zero (Nat.ne_of_gt hfuel)
    rw [List.map_nil, List.append_nil]
    exact (importLoop_last hd).1
  | cons d descs ih =>
    obtain ⟨fuel, rfl⟩ := Nat.exists_eq_succ_of_ne_zero (Nat.ne_of_gt (Nat.zero_lt_of_lt hfuel))
    obtain ⟨⟨firstThunk, hthunk, hne⟩, hrva, hname, hrest⟩ := hd
    rw [← hp d List.mem_cons_self] at hname
    rw [importLoop_result_next hthunk hne hrva hname,
      ih hrest (Nat.lt_of_succ_lt_succ hfuel) fun d hd => hp d (List.mem_cons_of_mem _ hd),
      List.map_cons, List.append_assoc, List.singleton_append]

/-- **The pointers of the loop** are exact exactly when the first one is and those to the
names are. -/
theorem importLoop_exactAt_iff {descs : List (BitVec 32 × List UInt8)}
    (hd : Descriptors m base a descs) (hfuel : descs.length < fuel) :
    (importLoop m base fuel offset a imports).ExactAt base ↔
      a = base + BitVec.ofInt b.bits offset ∧
        ∀ d ∈ descs, makePtr base d.1 = rvaAddress base d.1 := by
  induction descs generalizing fuel offset a imports with
  | nil =>
    obtain ⟨fuel, rfl⟩ := Nat.exists_eq_succ_of_ne_zero (Nat.ne_of_gt hfuel)
    rw [(importLoop_last hd).2]
    exact ⟨fun ha => ⟨ha, by simp⟩, fun h => h.1⟩
  | cons d descs ih =>
    obtain ⟨fuel, rfl⟩ := Nat.exists_eq_succ_of_ne_zero (Nat.ne_of_gt (Nat.zero_lt_of_lt hfuel))
    obtain ⟨⟨firstThunk, hthunk, hne⟩, hrva, hname, hrest⟩ := hd
    have hih : ∀ imports : List (List UInt8),
        (importLoop m base fuel (offset + 20) (a + 20) imports).ExactAt base ↔ _ := fun imports =>
      ih hrest (Nat.lt_of_succ_lt_succ hfuel)
    rw [importLoop_exactAt_next hthunk hne hrva, List.forall_mem_cons]
    constructor
    · rintro ⟨ha, hptr, hnext⟩
      exact ⟨ha, hptr, ((hih _).mp (hnext d.2 (hptr ▸ hname))).2⟩
    · rintro ⟨ha, hptr, hall⟩
      exact ⟨ha, hptr, fun s _ => (hih _).mpr ⟨(exact_add_iff 20).mpr ha, hall⟩⟩

/-- A loop that runs at all uses the pointer to the first descriptor. -/
theorem first_of_importLoop
    (h : (importLoop m base (fuel + 1) offset a imports).ExactAt base) :
    a = base + BitVec.ofInt b.bits offset := by
  rw [importLoop] at h
  exact (exact_add_iff 16).mp ((exactAt_readWord ..).mp (exactAt_bind.mp h).1)

end Loop

/-- Behind `k` descriptors lie the others. -/
theorem Descriptors.drop {m : Memory b.bits} {base : BitVec b.bits}
    {descs : List (BitVec 32 × List UInt8)} {a : BitVec b.bits} (hd : Descriptors m base a descs)
    {k : Nat} (hk : k ≤ descs.length) :
    Descriptors m base (a + BitVec.ofNat _ (20 * k)) (descs.drop k) := by
  induction k generalizing descs a with
  | zero => simpa using hd
  | succ k ih =>
    obtain ⟨d, descs, rfl⟩ := List.exists_cons_of_length_pos (Nat.zero_lt_of_lt hk)
    have hnext : a + BitVec.ofNat _ (20 * (k + 1)) = a + 20 + BitVec.ofNat _ (20 * k) := by
      rw [Nat.mul_succ, Nat.add_comm, BitVec.ofNat_add, BitVec.add_assoc]
      rfl
    rw [hnext, List.drop_succ_cons]
    exact ih hd.2.2.2 (Nat.le_of_succ_le_succ hk)

/-- The addresses bound the descriptors: the last one is none of those before it. -/
theorem Descriptors.length_lt {m : Memory b.bits} {base : BitVec b.bits}
    {descs : List (BitVec 32 × List UInt8)} {a : BitVec b.bits}
    (hd : Descriptors m base a descs) : descs.length < 2 ^ b.bits := by
  by_contra hlong
  have hpos := Nat.two_pow_pos b.bits
  have hround := hd.drop (Nat.sub_le descs.length (2 ^ b.bits))
  have hlast := hd.drop (Nat.le_refl descs.length)
  have hsame : a + BitVec.ofNat b.bits (20 * descs.length) =
      a + BitVec.ofNat _ (20 * (descs.length - 2 ^ b.bits)) := by
    congr 1
    apply BitVec.eq_of_toNat_eq
    have hsum : 20 * descs.length = 20 * (descs.length - 2 ^ b.bits) + 20 * 2 ^ b.bits := by omega
    rw [BitVec.toNat_ofNat, BitVec.toNat_ofNat, hsum, Nat.add_mul_mod_self_right]
  rw [List.drop_length, hsame] at hlast
  have hne : descs.drop (descs.length - 2 ^ b.bits) ≠ [] := by
    intro hnil
    have hlen := List.drop_eq_nil_iff.mp hnil
    omega
  obtain ⟨d, l, hl⟩ := List.exists_cons_of_ne_nil hne
  rw [hl] at hround
  obtain ⟨firstThunk, hthunk, hz⟩ := hround.1
  have hend : m.word 4 (a + BitVec.ofNat _ (20 * (descs.length - 2 ^ b.bits)) + 16) = some 0 :=
    hlast
  rw [hend, Option.some.injEq] at hthunk
  exact hz hthunk.symm

/-! ## Exact imports -/

/-- What is mapped at `base`: no PE image, one without imports, or a well-formed one with
the names that its descriptors give. -/
inductive ImportImage (m : Memory b.bits) (base : BitVec b.bits) : Type
  | notPe (h : ∀ eLfanew, ¬PeHeaderAt m base eLfanew)
  | noImports {eLfanew : BitVec 32} (h : PeHeaderAt m base eLfanew)
      (hrva : m.word 4 (importEntry (base + eLfanew.signExtend b.bits)) = some 0)
  | imports {eLfanew : BitVec 32} (h : PeHeaderAt m base eLfanew) (rva : BitVec 32)
      (hrva : m.word 4 (importEntry (base + eLfanew.signExtend b.bits)) = some rva)
      (hne : rva ≠ 0) (descs : List (BitVec 32 × List UInt8))
      (hdescs : Descriptors m base (rvaAddress base rva) descs)

section Image

variable {m : Memory b.bits} {base : BitVec b.bits}

/-- What is to be returned. -/
def ImportImage.expected (img : ImportImage m base) (imports : List (List UInt8)) :
    Bool × List (List UInt8) :=
  match img with
  | .notPe _ => (false, imports)
  | .noImports _ _ => (false, imports)
  | .imports _ _ _ _ descs _ => (true, imports ++ descs.map Prod.snd)

/-- The imports are read as they are, through pointers into the image only. -/
def ImportImage.ReadExactly (img : ImportImage m base) (imports : List (List UInt8)) : Prop :=
  (getImports m base imports).result = some (img.expected imports) ∧
    (getImports m base imports).ExactAt base

/-- The table and the names are below 4 GiB. Where the NT headers of no PE image cannot
be read, the place of the import RVA holds zero. -/
def ImportImage.InReach (img : ImportImage m base) : Prop :=
  match img with
  | .notPe _ => ∀ eLfanew, UnreadableAt m base eLfanew →
      m.word 4 (importEntry (base + eLfanew.signExtend b.bits)) = some 0
  | .noImports _ _ => True
  | .imports _ rva _ _ descs _ => (rvaAddress base rva).toNat < 2 ^ 32 ∧
      ∀ d ∈ descs, (rvaAddress base d.1).toNat < 2 ^ 32

theorem getImports_null (h : (peHeaderFromHModule m base).result = some 0)
    (imports : List (List UInt8)) :
    (getImports m base imports).result = some (false, imports) ∧
      (getImports m base imports).ExactAt base := by
  constructor
  · simp only [getImports, Access.result_bind, h, Option.bind_some, if_true, Access.result_pure]
  · unfold getImports
    refine exactAt_bind.mpr ⟨peHeader_exact m base, fun nt hnt => ?_⟩
    rw [h, Option.some.injEq] at hnt
    rw [← hnt, if_pos rfl]
    exact exactAt_pure _

/-- **Behind the headers** only the loop counts. -/
theorem getImports_result {nt : BitVec b.bits}
    (h : (peHeaderFromHModule m base).result = some nt) (hz : nt ≠ 0)
    (imports : List (List UInt8)) :
    (getImports m base imports).result =
      (m.word 4 (importEntry nt)).bind fun rva =>
        if rva = 0 then some (false, imports)
        else (importLoop m base (2 ^ b.bits) (BitVec.toNat rva) (makePtr base rva)
          imports).result.map fun l => (true, l) := by
  simp only [getImports, Access.result_bind, h, Option.bind_some, hz, if_false, result_readWord]
  congr 1
  funext rva
  by_cases hr : rva = 0
  · rw [if_pos hr, if_pos hr, Access.result_pure]
  · rw [if_neg hr, if_neg hr, Access.result_bind]
    cases (importLoop m base (2 ^ b.bits) (BitVec.toNat rva) (makePtr base rva) imports).result
      <;> rfl

/-- The same of the pointers. -/
theorem getImports_exactAt_iff {nt : BitVec b.bits}
    (h : (peHeaderFromHModule m base).result = some nt) (hz : nt ≠ 0)
    (imports : List (List UInt8)) :
    (getImports m base imports).ExactAt base ↔
      ∀ rva, m.word 4 (importEntry nt) = some rva → rva ≠ 0 →
        (importLoop m base (2 ^ b.bits) (BitVec.toNat rva) (makePtr base rva)
          imports).ExactAt base := by
  unfold getImports
  rw [exactAt_bind]
  constructor
  · rintro ⟨_, hexact⟩ rva hrva hne
    have h₁ := hexact nt h
    rw [if_neg hz] at h₁
    have h₂ := (exactAt_bind.mp h₁).2 rva hrva
    rw [if_neg hne] at h₂
    exact (exactAt_bind.mp h₂).1
  · intro hloop
    refine ⟨peHeader_exact m base, fun nt' hnt => ?_⟩
    rw [h, Option.some.injEq] at hnt
    rw [← hnt, if_neg hz]
    refine exactAt_bind.mpr ⟨(exactAt_readWord ..).mpr ?_, fun rva hrva => ?_⟩
    · rw [BitVec.ofInt_toInt, BitVec.add_comm, BitVec.sub_add_cancel]
    · by_cases hne : rva = 0
      · rw [if_pos hne]
        exact exactAt_pure _
      · rw [if_neg hne]
        exact exactAt_bind.mpr ⟨hloop rva hrva hne, fun l _ => exactAt_pure _⟩

/-- An import RVA of zero: no imports, and no more pointers. -/
theorem readExactly_of_zero {nt : BitVec b.bits}
    (h : (peHeaderFromHModule m base).result = some nt) (hz : nt ≠ 0)
    (hrva : m.word 4 (importEntry nt) = some 0) (imports : List (List UInt8)) :
    (getImports m base imports).result = some (false, imports) ∧
      (getImports m base imports).ExactAt base := by
  constructor
  · rw [getImports_result h hz, hrva]
    rfl
  · refine (getImports_exactAt_iff h hz imports).mpr fun rva hrva' hne => ?_
    rw [hrva, Option.some.injEq] at hrva'
    exact absurd hrva'.symm hne

/-- **The loop of a well-formed image** uses exact pointers exactly when the table and the
names are below 4 GiB. -/
theorem tableLoop_exactAt_iff {rva : BitVec 32} {descs : List (BitVec 32 × List UInt8)}
    (hdescs : Descriptors m base (rvaAddress base rva) descs) {imports : List (List UInt8)} :
    (importLoop m base (2 ^ b.bits) (BitVec.toNat rva) (makePtr base rva) imports).ExactAt base ↔
      (rvaAddress base rva).toNat < 2 ^ 32 ∧
        ∀ d ∈ descs, (rvaAddress base d.1).toNat < 2 ^ 32 := by
  simp only [← makePtr_eq_iff]
  constructor
  · intro h
    have hfuel : 2 ^ b.bits = 2 ^ b.bits - 1 + 1 :=
      (Nat.sub_add_cancel (Nat.two_pow_pos b.bits)).symm
    have hfirst := h
    rw [hfuel] at hfirst
    have htable : makePtr base rva = rvaAddress base rva := by
      rw [first_of_importLoop hfirst, rvaAddress_eq_ofInt]
    rw [htable, importLoop_exactAt_iff hdescs hdescs.length_lt] at h
    exact ⟨htable, h.2⟩
  · rintro ⟨htable, hnames⟩
    rw [htable, importLoop_exactAt_iff hdescs hdescs.length_lt]
    exact ⟨rvaAddress_eq_ofInt base rva, hnames⟩

/-- **Well-formed images** use exact pointers exactly in reach. -/
theorem wellFormed_exactAt_iff {eLfanew rva : BitVec 32} {descs : List (BitVec 32 × List UInt8)}
    (h : PeHeaderAt m base eLfanew)
    (hrva : m.word 4 (importEntry (base + eLfanew.signExtend b.bits)) = some rva) (hne : rva ≠ 0)
    (hdescs : Descriptors m base (rvaAddress base rva) descs) (imports : List (List UInt8)) :
    (getImports m base imports).ExactAt base ↔
      (rvaAddress base rva).toNat < 2 ^ 32 ∧
        ∀ d ∈ descs, (rvaAddress base d.1).toNat < 2 ^ 32 := by
  rw [getImports_exactAt_iff (peHeader_of_pe h) h.nonzero]
  constructor
  · exact fun hloop => (tableLoop_exactAt_iff hdescs).mp (hloop rva hrva hne)
  · intro hreach rva' hrva' _
    rw [hrva, Option.some.injEq] at hrva'
    rw [← hrva']
    exact (tableLoop_exactAt_iff hdescs).mpr hreach

/-- Headers that cannot be read are taken for headers of PE. -/
theorem unreadable_exact_iff {eLfanew : BitVec 32} (h : UnreadableAt m base eLfanew)
    (hno : ∀ eLfanew, ¬PeHeaderAt m base eLfanew) (imports : List (List UInt8)) :
    (ImportImage.notPe hno).ReadExactly imports ↔
      m.word 4 (importEntry (base + eLfanew.signExtend b.bits)) = some 0 := by
  constructor
  · rintro ⟨hr, _⟩
    rw [getImports_result (peHeader_of_unreadable h) h.nonzero] at hr
    obtain ⟨rva, hrva, hif⟩ := Option.bind_eq_some_iff.mp hr
    by_cases hne : rva = 0
    · rw [hrva, hne]
    · rw [if_neg hne] at hif
      obtain ⟨l, _, hl⟩ := Option.map_eq_some_iff.mp hif
      cases hl
  · exact fun hz => readExactly_of_zero (peHeader_of_unreadable h) h.nonzero hz imports

/-- **In reach.** The imports of an image in reach are read exactly. -/
theorem ImportImage.InReach.readExactly {img : ImportImage m base} (hreach : img.InReach)
    (imports : List (List UInt8)) : img.ReadExactly imports := by
  cases img with
  | notPe hno =>
    rcases peHeader_of_notPe hno with ⟨eLfanew, hun⟩ | hres
    · exact (unreadable_exact_iff hun hno imports).mpr (hreach eLfanew hun)
    · exact getImports_null hres imports
  | noImports h hz => exact readExactly_of_zero (peHeader_of_pe h) h.nonzero hz imports
  | imports h rva hrva hne descs hdescs =>
    refine ⟨?_, (wellFormed_exactAt_iff h hrva hne hdescs imports).mpr hreach⟩
    have htable := (makePtr_eq_iff base rva).mpr hreach.1
    have hloop : (importLoop m base (2 ^ b.bits) (BitVec.toNat rva) (makePtr base rva)
        imports).result = some (imports ++ descs.map Prod.snd) := by
      rw [htable]
      exact importLoop_result hdescs hdescs.length_lt fun d hd =>
        (makePtr_eq_iff base d.1).mpr (hreach.2 d hd)
    rw [getImports_result (peHeader_of_pe h) h.nonzero, hrva, Option.bind_some, if_neg hne, hloop]
    rfl

/-- **Imports.** They are read exactly when all of them are in reach. -/
theorem imports_exact_iff (img : ImportImage m base) (imports : List (List UInt8)) :
    img.ReadExactly imports ↔ img.InReach := by
  constructor
  · intro h
    cases img with
    | notPe hno => exact fun _ hun => (unreadable_exact_iff hun hno imports).mp h
    | noImports _ _ => trivial
    | imports hpe rva hrva hne descs hdescs =>
      exact (wellFormed_exactAt_iff hpe hrva hne hdescs imports).mp h.2
  · exact fun hreach => hreach.readExactly imports

/-- **Refinement.** Where the world lists the imports of a module's image, they are those
that the walk over an image in reach appends. -/
theorem getImports_refines {W : World} {h : Handle} {img : ImportImage m base}
    (hreach : img.InReach) (hW : W.imports h = (img.expected []).2.map nameString) :
    ∃ r, (getImports m base []).result = some r ∧ W.imports h = r.2.map nameString :=
  ⟨_, (hreach.readExactly []).1, hW⟩

end Image

/-! ## An image above 4 GiB -/

/-- An image that imports one module, `k`. -/
def highImageBytes : List UInt8 :=
  let dwords : List Nat → List UInt8 := fun l => l.flatMap (ByteStream.leBytes 4)
  [0x4D, 0x5A] ++ List.replicate 58 0 ++ dwords [0x40, 0x4550] ++ List.replicate 140 0 ++
    dwords [216, 40, 0, 0, 0, 256, 1, 0, 0, 0, 0, 0] ++ [107, 0]

def highImageMemory : Memory (Build.bits .x64) :=
  loaded 0x140000000 highImageBytes (by decide) (by decide +kernel)

theorem highImage_header : PeHeaderAt highImageMemory 0x140000000 0x40 :=
  ⟨by decide +kernel, by decide +kernel, by decide +kernel⟩

theorem highImage_rva : highImageMemory.word 4
    (importEntry (b := .x64) (0x140000000 + BitVec.signExtend (Build.bits .x64) 0x40#32)) =
      some 216 := by
  decide +kernel

theorem highImage_descriptors : Descriptors highImageMemory 0x140000000
    (rvaAddress (b := .x64) 0x140000000 216) [(256, [107])] := by
  have hend : highImageMemory.word 4
      (rvaAddress (b := .x64) 0x140000000 216 + 20 + 16) = some 0 := by decide +kernel
  exact ⟨⟨1, by decide +kernel, by decide⟩, by decide +kernel, by decide +kernel, hend⟩

def highImage : ImportImage highImageMemory 0x140000000 :=
  .imports highImage_header 216 highImage_rva (by decide) [(256, [107])] highImage_descriptors

/-- The pointer to its descriptors loses the high half. -/
theorem high_image_truncated : ¬highImage.ReadExactly [] := by
  rintro ⟨_, hexact⟩
  have hreach := ((wellFormed_exactAt_iff highImage_header highImage_rva (by decide)
    highImage_descriptors []).mp hexact).1
  revert hreach
  decide

end Odbk
