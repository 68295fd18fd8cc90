import Odbk.Provenance
import Odbk.PeImage

/-!
# Runs over mapped images

Where the modules that loads read are images in memory, the trace of a pointer goes on into
the image. Proved here:

* `exports_mapped`: an address that a load reads under a name is the one that the walk over
  the image records for it;
* `pointers_mapped`: after any run every pointer and every hook leads back to such an
  address.
-/

namespace Odbk

variable {b : Build}

/-- A module mapped at its handle, with an export directory. -/
structure MappedAt (W : World) (h : Handle) (img : ExportImage b) : Prop where
  base : img.base.toNat = h
  directory : img.exportRVA ≠ 0
  exports : W.exports h = img.table.map fun e => (nameString e.1, (rvaAddress img.base e.2).toNat)

/-- The module whose exports a load reads. -/
def exporter (W : World) (hLua : Handle) : Option Handle :=
  if hLua = nullptr then W.firstLoaded builtinModules else some hLua

theorem exportsOf_eq (W : World) (hLua : Handle) :
    exportsOf W hLua = (exporter W hLua).elim [] W.exports := by
  unfold exportsOf exporter processExports
  split
  · cases W.firstLoaded builtinModules <;> rfl
  · rfl

/-- What `odbk_get_exports` records for a name of the image at a handle, starting from no
symbols. -/
def RecordedAt (b : Build) (W : World) (h : Handle) (name : String) (a : Addr) : Prop :=
  ∃ (img : ExportImage b) (exports : ExportMap b) (key : List UInt8) (v : BitVec b.bits),
    MappedAt W h img ∧ getExports img.mem img.base .empty = some exports ∧
      exports.find? key = some v ∧ nameString key = name ∧ v.toNat = a

/-- **Into the image.** -/
theorem exports_mapped {W : World} {h : Handle} {img : ExportImage b} (hm : MappedAt W h img)
    {name : String} {a : Addr} (hl : (W.exports h).lookup name = some a) :
    RecordedAt b W h name a := by
  have hmem := EmplaceMap.mem_of_lookup hl
  rw [hm.exports] at hl hmem
  obtain ⟨e, _, he⟩ := List.mem_map.mp hmem
  cases he
  rw [EmplaceMap.lookup_map_key nameString_injective
    (fun rva => (rvaAddress img.base rva).toNat) img.table e.1] at hl
  obtain ⟨rva, hrva, ha⟩ := Option.map_eq_some_iff.mp hl
  refine ⟨img, _, e.1, rvaAddress img.base rva, hm, getExports_directory img hm.directory .empty,
    ?_, rfl, ha⟩
  rw [mergeTable, EmplaceMap.find?_emplaceAll, EmplaceMap.lookup_map, hrva]
  rfl

/-- An address that is not null, and that the walk over the image of a module that some load
read records for a name of the function. -/
def MappedFor (b : Build) (l : List (World × Handle)) (f : Fn) (a : Addr) : Prop :=
  a ≠ 0 ∧ ∃ name ∈ lookedUp f, ∃ e ∈ l, ∃ h, exporter e.1 e.2 = some h ∧
    RecordedAt b e.1 h name a

theorem mappedFor_of_exportedFor {l : List (World × Handle)}
    (hl : ∀ e ∈ l, ∀ h, exporter e.1 e.2 = some h → ∃ img : ExportImage b, MappedAt e.1 h img)
    {f : Fn} {a : Addr} (h : ExportedFor l f a) : MappedFor b l f a := by
  obtain ⟨hne, name, hn, e, he, hlookup⟩ := h
  rw [exportsOf_eq] at hlookup
  cases hx : exporter e.1 e.2 with
  | none =>
    rw [hx] at hlookup
    cases hlookup
  | some m =>
    rw [hx] at hlookup
    obtain ⟨img, himg⟩ := hl e he m hx
    exact ⟨hne, name, hn, e, he, m, hx, exports_mapped himg hlookup⟩

/-- An image that exports `lua_gettop`, at ordinal 1, and `lua_newstate`, at ordinal 0. -/
def luaImageBytes : List UInt8 :=
  let dwords : List Nat → List UInt8 := fun l => l.flatMap (ByteStream.leBytes 4)
  [0x4D, 0x5A] ++ List.replicate 58 0 ++ dwords [0x40, 0x4550] ++ List.replicate 132 0 ++
    dwords [208, 84] ++ List.replicate 16 0 ++
    dwords [1, 2, 2, 248, 256, 264, 4112, 4096, 268, 279] ++ [1, 0, 0, 0] ++
    "lua_gettop".toUTF8.toList ++ [0] ++ "lua_newstate".toUTF8.toList ++ [0]

def luaImage : ExportImage .x64 where
  mem := ByteMemory.loaded 0x190000000 luaImageBytes (by decide) (by decide +kernel)
  base := 0x190000000
  exportRVA := 208
  exportSize := 84
  header := ⟨0x40, by decide +kernel, by decide +kernel, by decide +kernel⟩
  table := [("lua_gettop".toUTF8.toList, 4096), ("lua_newstate".toUTF8.toList, 4112)]
  directory _ := ⟨⟨1, 2, 248, 256, 264⟩,
    readExportDirectory_eq_some_iff.mp (by decide +kernel),
    exportTable_eq_some_iff.mp (by decide +kernel), by decide⟩
  noDirectory h := absurd h (by decide)

/-- A process with this image at its handle. -/
def luaImageWorld : World := World.exporting (luaImage.table.map fun e =>
  (nameString e.1, (rvaAddress luaImage.base e.2).toNat))

theorem mappedAt_luaImage : MappedAt luaImageWorld 0x190000000 luaImage := ⟨rfl, by decide, rfl⟩

/-- **Pointers in images.** After any run from a new process whose loads read mapped images,
every API pointer that is set, and every hook, leads back to an address that is not null
and that `odbk_get_exports` records for a name of the function in the memory of a module
that was loaded. -/
theorem pointers_mapped {core : OdbkCore} {dbghelp : DbgFn → Bool} {l : List (World × Handle)}
    {p : Process} (run : BackendRun core (Process.fresh dbghelp) l p)
    (hl : ∀ e ∈ l, ∀ h, exporter e.1 e.2 = some h → ∃ img : ExportImage b, MappedAt e.1 h img) :
    (∀ f c, p.ptr f = some c → ∃ a, p.registry.origin c = some a ∧ MappedFor b l f a) ∧
      ∀ c d, p.registry.detourOf c = some d →
        ∃ a, p.registry.origin c = some a ∧ MappedFor b l d.fn a := by
  obtain ⟨hslot, hhooked⟩ := (traced_run run).backed
  constructor
  · intro f c hc
    obtain ⟨a, ha, hexp⟩ := hslot f c hc
    exact ⟨a, ha, mappedFor_of_exportedFor hl hexp⟩
  · intro c d hd
    obtain ⟨a, ha, hexp⟩ := hhooked c d hd
    exact ⟨a, ha, mappedFor_of_exportedFor hl hexp⟩

theorem pointers_mapped_luaImage :
    ∃ p, BackendRun ⟨0, 0⟩ (Process.fresh fun _ => true) [(luaImageWorld, 0x190000000)] p ∧
      p.ptr .luaNewstate = some (.image 0x190001010) ∧
      ∀ f c, p.ptr f = some c → ∃ a, p.registry.origin c = some a ∧
        MappedFor .x64 [(luaImageWorld, 0x190000000)] f a := by
  have hload := odbkLoadLuaInternal_module luaImageWorld ⟨0, 0⟩
    (show (0x190000000 : Handle) ≠ nullptr by decide) (Process.fresh fun _ => true)
  have run := BackendRun.load hload (.nil _)
  refine ⟨_, run, by decide +kernel, (pointers_mapped run fun e he h hx => ?_).1⟩
  cases List.mem_singleton.mp he
  cases hx
  exact ⟨luaImage, mappedAt_luaImage⟩

end Odbk
