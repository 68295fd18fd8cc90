import Odbk.Load
import Odbk.Lib.ByteMemory

/-!
# Mapped images and their exports

`odbk_get_exports` walks the export tables of a mapped image. The image is the memory of
the process at the address of the module. Proved here:

* `exportTable_eq_some_iff`: the walk reads the functions that the arrays of the image list;
* `getExports_eq`: it is one first-wins merge of them;
* `exports_exact_iff`: when the map it leaves is that of the functions exported;
* `odbkGetExports_refines`: the exports of a loaded module are those of its image.
-/

namespace Odbk

open ByteMemory

/-- The builds of the backend: 32 and 64 bits. -/
inductive Build where
  | x86 | x64
  deriving DecidableEq, Repr

/-- The width of a pointer. -/
def Build.bits : Build → Nat
  | .x86 => 32
  | .x64 => 64

/-- Where `OptionalHeader.DataDirectory` is in `IMAGE_NT_HEADERS`. -/
def Build.dataDirectory : Build → Nat
  | .x86 => 24 + 96
  | .x64 => 24 + 112

theorem Build.le_bits (b : Build) : 32 ≤ b.bits := by
  cases b <;> decide

variable {b : Build}

/-- Read a `DWORD`. -/
def dword (m : Memory b.bits) (a : BitVec b.bits) : Option (BitVec 32) := m.word 4 a

/-- The address of an RVA of the image at `hModule`. -/
def rvaAddress (hModule : BitVec b.bits) (rva : BitVec 32) : BitVec b.bits :=
  hModule + rva.setWidth b.bits

theorem rvaAddress_injective (hModule : BitVec b.bits) :
    Function.Injective (rvaAddress hModule) := by
  intro r r' h
  have hs : r.setWidth b.bits = r'.setWidth b.bits := BitVec.add_right_inj _ |>.mp h
  have ht := congrArg BitVec.toNat hs
  have hle : (2 ^ 32 : Nat) ≤ 2 ^ b.bits := Nat.pow_le_pow_right (by decide) b.le_bits
  rw [BitVec.toNat_setWidth, BitVec.toNat_setWidth,
    Nat.mod_eq_of_lt (Nat.lt_of_lt_of_le r.isLt hle),
    Nat.mod_eq_of_lt (Nat.lt_of_lt_of_le r'.isLt hle)] at ht
  exact BitVec.eq_of_toNat_eq ht

/-! ## The code -/

/-- The fields of `IMAGE_EXPORT_DIRECTORY` that are read. -/
structure ExportDirectory where
  base : BitVec 32
  numberOfNames : BitVec 32
  addressOfFunctions : BitVec 32
  addressOfNames : BitVec 32
  addressOfNameOrdinals : BitVec 32
  deriving DecidableEq, Repr

def readExportDirectory (m : Memory b.bits) (a : BitVec b.bits) : Option ExportDirectory := do
  let base ← dword m (a + 16)
  let numberOfNames ← dword m (a + 24)
  let addressOfFunctions ← dword m (a + 28)
  let addressOfNames ← dword m (a + 32)
  let addressOfNameOrdinals ← dword m (a + 36)
  return ⟨base, numberOfNames, addressOfFunctions, addressOfNames, addressOfNameOrdinals⟩

/-- The name at index `i` of an export table, with the RVA of its function. -/
def exportEntry (m : Memory b.bits) (hModule : BitVec b.bits) (dir : ExportDirectory) (i : Nat) :
    Option (List UInt8 × BitVec 32) := do
  let nameRVA ← dword m (rvaAddress hModule dir.addressOfNames + BitVec.ofNat _ (4 * i))
  let strFunction ← m.string (rvaAddress hModule nameRVA)
  let ordinal ← m.word 2
    (rvaAddress hModule dir.addressOfNameOrdinals + BitVec.ofNat _ (2 * i))
  let functionRVA ← dword m
    (rvaAddress hModule dir.addressOfFunctions + BitVec.ofNat _ (4 * ordinal.toNat))
  return (strFunction, functionRVA)

/-- The map of `odbk_get_exports`: names as the bytes of the image. -/
abbrev ExportMap (b : Build) := EmplaceMap (List UInt8) (BitVec b.bits)

/-- `odbk_get_exports`; `none` is an access violation. -/
def getExports (m : Memory b.bits) (hModule : BitVec b.bits) (exports : ExportMap b) :
    Option (ExportMap b) := do
  let eLfanew ← dword m (hModule + 0x3C)
  let pImageNtHeader := hModule + eLfanew.signExtend b.bits
  let directoryEntry := pImageNtHeader + BitVec.ofNat _ b.dataDirectory
  let dwExportRVA ← dword m directoryEntry
  -- read, and used no more
  let _dwExportSize ← dword m (directoryEntry + 4)
  let dir ← readExportDirectory m (rvaAddress hModule dwExportRVA)
  -- the loop compares `i` with `(int)dwNumberOfNames`
  (List.range dir.numberOfNames.toInt.toNat).foldlM (fun exports i =>
    (exportEntry m hModule dir i).map fun e => exports.emplace e.1 (rvaAddress hModule e.2)) exports

/-! ## What the walk reads -/

/-- The first `n` entries of an export table. -/
def exportTable (m : Memory b.bits) (hModule : BitVec b.bits) (dir : ExportDirectory) (n : Nat) :
    Option (List (List UInt8 × BitVec 32)) :=
  (List.range n).mapM (exportEntry m hModule dir)

/-- Insert the functions of a table. -/
def mergeTable (hModule : BitVec b.bits) (exports : ExportMap b)
    (table : List (List UInt8 × BitVec 32)) : ExportMap b :=
  exports.emplaceAll (table.map fun e => (e.1, rvaAddress hModule e.2))

/-- **The walk**, given the directory: a first-wins merge of the table. -/
theorem foldlM_exportEntry (m : Memory b.bits) (hModule : BitVec b.bits) (dir : ExportDirectory)
    (n : Nat) (exports : ExportMap b) :
    (List.range n).foldlM (fun exports i =>
        (exportEntry m hModule dir i).map fun e => exports.emplace e.1 (rvaAddress hModule e.2))
        exports =
      (exportTable m hModule dir n).map (mergeTable hModule exports) :=
  EmplaceMap.foldlM_emplace _ _ _ _

/-- The fields of the image that lead to its export directory. -/
structure ExportHeader (m : Memory b.bits) (hModule : BitVec b.bits) (rva size : BitVec 32) :
    Prop where
  reads : ∃ eLfanew, dword m (hModule + 0x3C) = some eLfanew ∧
    dword m (hModule + eLfanew.signExtend b.bits + BitVec.ofNat _ b.dataDirectory) = some rva ∧
    dword m (hModule + eLfanew.signExtend b.bits + BitVec.ofNat _ b.dataDirectory + 4) = some size

/-- **What `odbk_get_exports` returns**: the table of what it takes for the directory,
merged into the map. -/
theorem getExports_eq {m : Memory b.bits} {hModule : BitVec b.bits} {rva size : BitVec 32}
    (h : ExportHeader m hModule rva size) (exports : ExportMap b) :
    getExports m hModule exports =
      (readExportDirectory m (rvaAddress hModule rva)).bind fun dir =>
        (exportTable m hModule dir dir.numberOfNames.toInt.toNat).map
          (mergeTable hModule exports) := by
  obtain ⟨eLfanew, he, hr, hs⟩ := h.reads
  simp only [getExports, he, hr, hs, Option.bind_eq_bind, Option.bind_some, foldlM_exportEntry]

/-! ## The tables of an image -/

/-- An export directory lies at `a`: of its ten `DWORD`s, those that are read. -/
structure DirectoryAt (m : Memory b.bits) (a : BitVec b.bits) (dir : ExportDirectory) : Prop where
  base : m.WordAt 4 a 4 dir.base
  numberOfNames : m.WordAt 4 a 6 dir.numberOfNames
  addressOfFunctions : m.WordAt 4 a 7 dir.addressOfFunctions
  addressOfNames : m.WordAt 4 a 8 dir.addressOfNames
  addressOfNameOrdinals : m.WordAt 4 a 9 dir.addressOfNameOrdinals

/-- At `aNames` lie RVAs of these names and at `aOrdinals` the ordinals that go with them.
The RVA of the function is the element of the array at `aFunctions` at the ordinal. -/
def NameTable (m : Memory b.bits) (hModule aFunctions : BitVec b.bits) :
    BitVec b.bits → BitVec b.bits → List (List UInt8 × BitVec 32) → Prop
  | _, _, [] => True
  | aNames, aOrdinals, (name, functionRVA) :: table =>
    (∃ nameRVA, m.word 4 aNames = some nameRVA ∧
        m.string (rvaAddress hModule nameRVA) = some name) ∧
      (∃ ordinal, m.word 2 aOrdinals = some ordinal ∧
        m.WordAt 4 aFunctions ordinal.toNat functionRVA) ∧
      NameTable m hModule aFunctions (aNames + 4) (aOrdinals + 2) table

/-- The arrays of a directory list `n` names with these functions. -/
structure ExportDirectory.Lists (dir : ExportDirectory) (m : Memory b.bits)
    (hModule : BitVec b.bits) (n : Nat) (table : List (List UInt8 × BitVec 32)) : Prop where
  length : table.length = n
  names : NameTable m hModule (rvaAddress hModule dir.addressOfFunctions)
    (rvaAddress hModule dir.addressOfNames) (rvaAddress hModule dir.addressOfNameOrdinals) table

section Tables

variable {m : Memory b.bits} {hModule a : BitVec b.bits} {dir : ExportDirectory}

theorem dword_iff {i : Nat} {x : BitVec 32} :
    dword m (a + BitVec.ofNat _ (4 * i)) = some x ↔ m.WordAt 4 a i x :=
  Memory.wordAt_iff.symm

theorem readExportDirectory_eq_some_iff :
    readExportDirectory m a = some dir ↔ DirectoryAt m a dir := by
  constructor
  · intro h
    simp only [readExportDirectory, Option.bind_eq_bind, Option.bind_eq_some_iff,
      Option.pure_def, Option.some.injEq] at h
    obtain ⟨base, hbase, names, hnames, fns, hfns, aNames, haNames, aOrdinals, haOrdinals, rfl⟩ := h
    exact ⟨(dword_iff (i := 4)).mp hbase, (dword_iff (i := 6)).mp hnames,
      (dword_iff (i := 7)).mp hfns, (dword_iff (i := 8)).mp haNames,
      (dword_iff (i := 9)).mp haOrdinals⟩
  · rintro ⟨hbase, hnames, hfns, haNames, haOrdinals⟩
    have hbase : dword m (a + 16) = some dir.base := (dword_iff (i := 4)).mpr hbase
    have hnames : dword m (a + 24) = some dir.numberOfNames := (dword_iff (i := 6)).mpr hnames
    have hfns : dword m (a + 28) = some dir.addressOfFunctions :=
      (dword_iff (i := 7)).mpr hfns
    have haNames : dword m (a + 32) = some dir.addressOfNames := (dword_iff (i := 8)).mpr haNames
    have haOrdinals : dword m (a + 36) = some dir.addressOfNameOrdinals :=
      (dword_iff (i := 9)).mpr haOrdinals
    simp only [readExportDirectory, hbase, hnames, hfns, haNames, haOrdinals,
      Option.bind_eq_bind, Option.bind_some, Option.pure_def]

/-- One entry: the name at the index, and the function at its ordinal. -/
theorem exportEntry_eq_some_iff {i : Nat} {name : List UInt8} {functionRVA : BitVec 32} :
    exportEntry m hModule dir i = some (name, functionRVA) ↔
      (∃ nameRVA, m.word 4 (rvaAddress hModule dir.addressOfNames + BitVec.ofNat _ (4 * i)) =
          some nameRVA ∧ m.string (rvaAddress hModule nameRVA) = some name) ∧
        ∃ ordinal,
          m.word 2 (rvaAddress hModule dir.addressOfNameOrdinals + BitVec.ofNat _ (2 * i)) =
            some ordinal ∧
          m.WordAt 4 (rvaAddress hModule dir.addressOfFunctions) ordinal.toNat functionRVA := by
  constructor
  · intro h
    simp only [exportEntry, Option.bind_eq_bind, Option.bind_eq_some_iff, Option.pure_def,
      Option.some.injEq, Prod.mk.injEq] at h
    obtain ⟨nameRVA, hrva, s, hs, ordinal, hordinal, rva, hfn, rfl, rfl⟩ := h
    exact ⟨⟨nameRVA, hrva, hs⟩, ordinal, hordinal, Memory.wordAt_iff.mpr hfn⟩
  · rintro ⟨⟨nameRVA, hrva, hs⟩, ordinal, hordinal, hfn⟩
    have hrva : dword m (rvaAddress hModule dir.addressOfNames + BitVec.ofNat _ (4 * i)) =
        some nameRVA := hrva
    have hfn : dword m (rvaAddress hModule dir.addressOfFunctions +
        BitVec.ofNat _ (4 * ordinal.toNat)) = some functionRVA := Memory.wordAt_iff.mp hfn
    simp only [exportEntry, hrva, hs, hordinal, hfn, Option.bind_eq_bind, Option.bind_some,
      Option.pure_def]

/-- From index `i` on. -/
theorem mapM_exportEntry_iff {i n : Nat} {table : List (List UInt8 × BitVec 32)} :
    (List.range' i n).mapM (exportEntry m hModule dir) = some table ↔
      table.length = n ∧ NameTable m hModule (rvaAddress hModule dir.addressOfFunctions)
        (rvaAddress hModule dir.addressOfNames + BitVec.ofNat _ (4 * i))
        (rvaAddress hModule dir.addressOfNameOrdinals + BitVec.ofNat _ (2 * i)) table := by
  have hstep : ∀ (a : BitVec b.bits) (k i : Nat),
      a + BitVec.ofNat _ (k * i) + BitVec.ofNat _ k = a + BitVec.ofNat _ (k * (i + 1)) := by
    intro a k i
    rw [BitVec.add_assoc, ← BitVec.ofNat_add, Nat.mul_succ]
  induction n generalizing i table with
  | zero =>
    rw [List.range'_zero, List.mapM_nil, List.length_eq_zero_iff]
    constructor
    · intro h
      cases h
      exact ⟨rfl, trivial⟩
    · rintro ⟨rfl, -⟩
      rfl
  | succ n ih =>
    rw [List.range'_succ, List.mapM_cons]
    simp only [Option.bind_eq_bind, Option.pure_def, Option.bind_eq_some_iff, Option.some.injEq]
    constructor
    · rintro ⟨e, he, rest, hrest, rfl⟩
      obtain ⟨hlen, hnames⟩ := ih.mp hrest
      obtain ⟨hname, hfn⟩ := exportEntry_eq_some_iff.mp he
      refine ⟨congrArg Nat.succ hlen, hname, hfn, ?_⟩
      rw [← hstep, ← hstep] at hnames
      exact hnames
    · rintro ⟨hlen, hnames⟩
      obtain ⟨e, rest, rfl⟩ := List.exists_cons_of_length_eq_add_one hlen
      obtain ⟨hname, hfn, hnames⟩ := hnames
      refine ⟨e, exportEntry_eq_some_iff.mpr ⟨hname, hfn⟩, rest, ih.mpr ⟨?_, ?_⟩, rfl⟩
      · exact Nat.succ.inj hlen
      · rw [← hstep, ← hstep]
        exact hnames

/-- **The walk reads the tables**: `exportTable` computes what the arrays list. -/
theorem exportTable_eq_some_iff {n : Nat} {table : List (List UInt8 × BitVec 32)} :
    exportTable m hModule dir n = some table ↔ dir.Lists m hModule n table := by
  rw [exportTable, List.range_eq_range', mapM_exportEntry_iff, Nat.mul_zero, BitVec.add_zero,
    BitVec.add_zero]
  exact ⟨fun ⟨hlen, hnames⟩ => ⟨hlen, hnames⟩, fun ⟨hlen, hnames⟩ => ⟨hlen, hnames⟩⟩

end Tables

/-! ## Exact exports -/

/-- A mapped image, seen as what it exports: the functions that its arrays list by name, if
it has an export directory. -/
structure ExportImage (b : Build) where
  mem : Memory b.bits
  base : BitVec b.bits
  exportRVA : BitVec 32
  exportSize : BitVec 32
  header : ExportHeader mem base exportRVA exportSize
  table : List (List UInt8 × BitVec 32)
  /-- the tables are mapped, and the names lie where RVAs reach -/
  directory : exportRVA ≠ 0 → ∃ dir, DirectoryAt mem (rvaAddress base exportRVA) dir ∧
    dir.Lists mem base dir.numberOfNames.toNat table ∧
    dir.addressOfNames.toNat + 4 * dir.numberOfNames.toNat ≤ 2 ^ 32
  noDirectory : exportRVA = 0 → table = []

/-- The RVA is inside the export directory: that of a forwarder string. -/
def ExportImage.isForwarder (img : ExportImage b) (functionRVA : BitVec 32) : Bool :=
  decide (img.exportRVA.toNat ≤ functionRVA.toNat ∧
    functionRVA.toNat < img.exportRVA.toNat + img.exportSize.toNat)

/-- The initial map extended by the functions that the image exports as code. -/
def ExportImage.exact (img : ExportImage b) (exports : ExportMap b) : ExportMap b :=
  mergeTable img.base exports (img.table.filter fun e => !img.isForwarder e.2)

/-- No name without an entry is exported as a forwarder, by its first table entry. -/
def ExportImage.NewNamesAreCode (img : ExportImage b) (exports : ExportMap b) : Prop :=
  ∀ pre name rva post, img.table = pre ++ (name, rva) :: post → (∀ e ∈ pre, e.1 ≠ name) →
    exports.find? name = none → img.isForwarder rva = false

/-- What the DOS header holds where a directory has its fields lists readable names with
entries, or none. -/
def ExportImage.DosListsNothing (img : ExportImage b) (exports : ExportMap b) : Prop :=
  ∃ dir table, DirectoryAt img.mem img.base dir ∧
    dir.Lists img.mem img.base dir.numberOfNames.toInt.toNat table ∧
    ∀ e ∈ table, exports.find? e.1 ≠ none

theorem ExportImage.newNamesAreCode_iff (img : ExportImage b) (exports : ExportMap b) :
    mergeTable img.base exports img.table = img.exact exports ↔ img.NewNamesAreCode exports := by
  have hiff := EmplaceMap.emplaceAll_filter_iff (rvaAddress_injective img.base)
    (fun e => !img.isForwarder e.2) img.table exports
  simp only [Bool.not_eq_true'] at hiff
  exact hiff

theorem toInt_of_names {dir : ExportDirectory}
    (h : dir.addressOfNames.toNat + 4 * dir.numberOfNames.toNat ≤ 2 ^ 32) :
    dir.numberOfNames.toInt.toNat = dir.numberOfNames.toNat := by
  have hlt : 2 * dir.numberOfNames.toNat < 2 ^ 32 := by omega
  rw [BitVec.toInt_eq_toNat_of_lt hlt, Int.toNat_natCast]

/-- With an export directory the walk merges the whole table. -/
theorem getExports_directory (img : ExportImage b) (hne : img.exportRVA ≠ 0)
    (exports : ExportMap b) :
    getExports img.mem img.base exports = some (mergeTable img.base exports img.table) := by
  obtain ⟨dir, hdir, hlists, hfits⟩ := img.directory hne
  rw [getExports_eq img.header, readExportDirectory_eq_some_iff.mpr hdir, Option.bind_some,
    toInt_of_names hfits, exportTable_eq_some_iff.mpr hlists, Option.map_some]

/-- Without one it takes the DOS header for it. -/
theorem getExports_dos (img : ExportImage b) (hz : img.exportRVA = 0) (exports : ExportMap b) :
    getExports img.mem img.base exports = some exports ↔ img.DosListsNothing exports := by
  have hbase : rvaAddress img.base img.exportRVA = img.base := by
    rw [hz, rvaAddress]
    simp
  rw [getExports_eq img.header, hbase]
  constructor
  · intro h
    obtain ⟨dir, hdir, h⟩ := Option.bind_eq_some_iff.mp h
    obtain ⟨table, htable, hmerge⟩ := Option.map_eq_some_iff.mp h
    refine ⟨dir, table, readExportDirectory_eq_some_iff.mp hdir,
      exportTable_eq_some_iff.mp htable, fun e he => ?_⟩
    have hall := (EmplaceMap.emplaceAll_eq_self_iff _ _).mp hmerge
    exact hall _ (List.mem_map_of_mem he)
  · rintro ⟨dir, table, hdir, hlists, hall⟩
    rw [readExportDirectory_eq_some_iff.mpr hdir, Option.bind_some,
      exportTable_eq_some_iff.mpr hlists, Option.map_some, Option.some.injEq]
    refine (EmplaceMap.emplaceAll_eq_self_iff _ _).mpr fun e he => ?_
    obtain ⟨c, hc, rfl⟩ := List.mem_map.mp he
    exact hall c hc

/-- **Exports.** The walk leaves the map of the functions exported exactly when no new
name is a forwarder and, without an export directory, the DOS header lists nothing. -/
theorem exports_exact_iff (img : ExportImage b) (exports : ExportMap b) :
    getExports img.mem img.base exports = some (img.exact exports) ↔
      if img.exportRVA = 0 then img.DosListsNothing exports
      else img.NewNamesAreCode exports := by
  by_cases hz : img.exportRVA = 0
  · have hexact : img.exact exports = exports := by
      rw [ExportImage.exact, img.noDirectory hz]
      rfl
    rw [if_pos hz, hexact, getExports_dos img hz]
  · rw [if_neg hz, getExports_directory img hz, Option.some.injEq, img.newNamesAreCode_iff]

/-! ## An image with a forwarder -/

/-- An image that exports `f`, forwarded to `k.g`, and a function `g`. The name `f` comes
first and has ordinal 1. -/
def forwarderBytes : List UInt8 :=
  let dwords : List Nat → List UInt8 := fun l => l.flatMap (ByteStream.leBytes 4)
  [0x4D, 0x5A] ++ List.replicate 58 0 ++ dwords [0x40, 0x4550] ++ List.replicate 132 0 ++
    dwords [208, 68] ++ List.replicate 16 0 ++
    dwords [1, 2, 2, 248, 256, 264, 4096, 272, 268, 270] ++ [1, 0, 0, 0] ++
    [102, 0] ++ [103, 0] ++ [107, 46, 103, 0]

def forwarderImage : ExportImage .x64 where
  mem := loaded 0x180000000 forwarderBytes (by decide) (by decide +kernel)
  base := 0x180000000
  exportRVA := 208
  exportSize := 68
  header := ⟨0x40, by decide +kernel, by decide +kernel, by decide +kernel⟩
  table := [([102], 272), ([103], 4096)]
  directory _ := ⟨⟨1, 2, 248, 256, 264⟩,
    readExportDirectory_eq_some_iff.mp (by decide +kernel),
    exportTable_eq_some_iff.mp (by decide +kernel), by decide⟩
  noDirectory h := absurd h (by decide)

/-- The forwarder string is recorded as a function. -/
theorem forwarder_recorded :
    getExports forwarderImage.mem forwarderImage.base .empty ≠
      some (forwarderImage.exact .empty) := by
  intro h
  rw [getExports_directory forwarderImage (by decide), Option.some.injEq,
    forwarderImage.newNamesAreCode_iff] at h
  have hcode := h [] [102] 272 [([103], 4096)] rfl (by simp) rfl
  revert hcode
  decide

/-! ## The world's exports -/

/-- The text of a name, byte by byte. -/
def nameString (name : List UInt8) : String :=
  String.ofList (name.map fun c => Char.ofNat c.toNat)

theorem nameString_injective : Function.Injective nameString := by
  intro s t h
  have hchars := String.ofList_injective h
  refine List.map_injective_iff.mpr ?_ hchars
  intro c d hcd
  have hvalid : ∀ e : UInt8, (Char.ofNat e.toNat).toNat = e.toNat := by
    intro e
    have hlt := e.toNat_lt
    have hv : e.toNat.isValidChar := Or.inl (by omega)
    rw [Char.ofNat, dif_pos hv]
    rfl
  have ht := congrArg Char.toNat hcd
  rw [hvalid, hvalid] at ht
  exact UInt8.toNat_inj.mp ht

/-- **Refinement.** Where the world lists the table of a module's image, its exports are
those that the walk over the image leaves. -/
theorem odbkGetExports_refines {W : World} {h : Handle} (img : ExportImage b)
    (hne : img.exportRVA ≠ 0)
    (hW : W.exports h =
      img.table.map fun e => (nameString e.1, (rvaAddress img.base e.2).toNat))
    {symbols : Symbols} {exports : ExportMap b}
    (hs : ∀ name, symbols.find? (nameString name) = (exports.find? name).map BitVec.toNat) :
    ∃ exports', getExports img.mem img.base exports = some exports' ∧
      ∀ name, (odbkGetExports W h symbols).find? (nameString name) =
        (exports'.find? name).map BitVec.toNat := by
  refine ⟨_, getExports_directory img hne exports, fun name => ?_⟩
  have hleft := EmplaceMap.lookup_map_key nameString_injective
    (fun rva => (rvaAddress img.base rva).toNat) img.table name
  have hright := EmplaceMap.lookup_map (rvaAddress img.base) img.table name
  rw [odbkGetExports, mergeTable, EmplaceMap.find?_emplaceAll, EmplaceMap.find?_emplaceAll, hW,
    hleft, hright, hs]
  cases exports.find? name with
  | some a => rfl
  | none =>
    rw [Option.map_none, Option.none_or, Option.none_or, Option.map_map]
    rfl

end Odbk
