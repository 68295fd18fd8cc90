import Odbk.Imports
import Odbk.ScanComplete

/-!
# Scans over mapped images

Where the modules are images in memory, a scan follows the imports that `odbk_get_imports`
reads there. Proved here:

* `resolvedImports_withMemory`: what it follows from an image that is read exactly;
* `scan_mapped`: a scan goes where the import descriptors lead and reads inside the images,
  if all images on the way are in reach; and only then, if it stays below its limit.
-/

namespace Odbk

open ByteMemory VisitedWalk

variable {b : Build}

/-! ## A process with its memory -/

/-- A world whose modules import what `odbk_get_imports` reads. A read that faults ends the
process, and a scan follows nothing from there. -/
def World.withMemory (W : World) (m : Memory b.bits) : World :=
  { W with imports := fun h =>
      (getImports m (BitVec.ofNat b.bits h) []).result.elim [] fun r => r.2.map nameString }

/-- The images of the modules a scan may come to, each mapped at its handle. -/
structure ModuleImages (b : Build) (W : World) (core : OdbkCore) where
  mem : Memory b.bits
  image : ∀ h ∈ W.universe core, ImportImage mem (BitVec.ofNat b.bits h)

namespace ModuleImages

variable {W : World} {core : OdbkCore} (I : ModuleImages b W core)

/-- The loaded modules that the import descriptors of a module name. -/
def listed (h : Handle) : List Handle :=
  if hm : h ∈ W.universe core then
    ((((I.image h hm).expected []).2.map nameString).map W.getModuleHandle).filter (· ≠ nullptr)
  else []

/-- The modules to which the import descriptors lead from the snapshot, without the debugger
itself. -/
def Linked : Handle → Prop :=
  Reach (fun h => decide (h = core.appInst)) I.listed (W.roots core)

def InReach (h : Handle) : Prop := ∀ hm : h ∈ W.universe core, (I.image h hm).InReach

/-- The imports of the module are read as they are, inside its image. -/
def ReadExactly (h : Handle) : Prop :=
  ∀ hm : h ∈ W.universe core, (I.image h hm).ReadExactly []

theorem inReach_iff (h : Handle) : I.ReadExactly h ↔ I.InReach h :=
  forall_congr' fun hm => imports_exact_iff (I.image h hm) []

/-- **The imports of an image** that is read exactly are those it lists. -/
theorem resolvedImports_withMemory {a : Handle} (hm : a ∈ W.universe core)
    (hr : I.ReadExactly a) : resolvedImports (W.withMemory I.mem) a = I.listed a := by
  have himports : (W.withMemory I.mem).imports a =
      ((I.image a hm).expected []).2.map nameString := by
    change ((getImports I.mem (BitVec.ofNat b.bits a) []).result.elim [] _) = _
    rw [(hr hm).1, Option.elim_some]
  rw [resolvedImports, himports, listed, dif_pos hm]
  rfl

/-! ## Where a scan can come to -/

theorem reachable_mem_universe {m : Memory b.bits} {a : Handle}
    (h : Reachable (W.withMemory m) core a) : a ∈ W.universe core := by
  cases h with
  | root h _ => exact roots_subset_universe W core _ h
  | step _ h _ => exact resolvedImports_subset_universe (W.withMemory m) core _ _ h

/-- It comes to linked modules only, if these are in reach. -/
theorem linked_of_reachable (hlinked : ∀ a, I.Linked a → I.InReach a) {a : Handle}
    (h : Reachable (W.withMemory I.mem) core a) : I.Linked a := by
  refine h.mono (fun _ h => h) fun c hc hl d hd => ?_
  rwa [I.resolvedImports_withMemory (reachable_mem_universe hc)
    ((I.inReach_iff c).mpr (hlinked c hl))] at hd

/-- It can come to all of them, if what it comes to is read exactly. -/
theorem reachable_of_linked
    (hread : ∀ a, Reachable (W.withMemory I.mem) core a → I.ReadExactly a) {a : Handle}
    (h : I.Linked a) : Reachable (W.withMemory I.mem) core a := by
  refine h.mono (fun _ h => h) fun c _ hr d hd => ?_
  rwa [I.resolvedImports_withMemory (reachable_mem_universe hr) (hread c hr)]

/-- **Scans of memory.** If all modules to which the import descriptors lead are in reach, a
scan starts none but these and reads the imports of each as they are, inside its image.
If a scan that ends with fewer than 166 symbols reads the imports of what it starts so,
then it starts all these modules, and they are in reach. -/
theorem scan_mapped {p : Process} {s : Scan}
    (h : loadSymFromAppModules (W.withMemory I.mem) core p = .ok s) :
    ((∀ a, I.Linked a → I.InReach a) →
        ∀ a ∈ started s.calls, I.Linked a ∧ I.ReadExactly a) ∧
      (s.process.ctx.symbols.size < 166 → (∀ a ∈ started s.calls, I.ReadExactly a) →
        ∀ a, I.Linked a → a ∈ started s.calls ∧ I.InReach a) := by
  obtain ⟨vs, hrun⟩ := scanRun_of_ok h
  rw [hrun.started]
  constructor
  · intro hlinked a ha
    obtain ⟨v, hv, rfl⟩ := List.mem_map.mp ha
    have hl := I.linked_of_reachable hlinked (hrun.reachable hv)
    exact ⟨hl, (I.inReach_iff _).mpr (hlinked _ hl)⟩
  · intro hlimit hread a hl
    have hall : ∀ c, Reachable (W.withMemory I.mem) core c → I.ReadExactly c := fun c hc =>
      hread c (hrun.mem_of_reachable hlimit hc)
    have hr := I.reachable_of_linked hall hl
    exact ⟨hrun.mem_of_reachable hlimit hr, (I.inReach_iff a).mp (hall a hr)⟩

end ModuleImages

/-! ## An image that imports itself -/

/-- The 32-bit build reaches every PE image. -/
theorem ImportImage.inReach_x86 {m : Memory (Build.bits .x86)} {base : BitVec (Build.bits .x86)}
    (img : ImportImage m base) {eLfanew : BitVec 32} (h : PeHeaderAt m base eLfanew) :
    img.InReach := by
  cases img with
  | notPe hno => exact absurd h (hno eLfanew)
  | noImports _ _ => trivial
  | imports _ rva _ _ descs _ =>
    exact ⟨(rvaAddress (b := .x86) base rva).isLt,
      fun d _ => (rvaAddress (b := .x86) base d.1).isLt⟩

/-- A module that imports `k`, which is itself. -/
def selfImageBytes : List UInt8 :=
  let dwords : List Nat → List UInt8 := fun l => l.flatMap (ByteStream.leBytes 4)
  [0x4D, 0x5A] ++ List.replicate 58 0 ++ dwords [0x40, 0x4550] ++ List.replicate 124 0 ++
    dwords [200, 40, 0, 0, 0, 240, 1, 0, 0, 0, 0, 0] ++ [107, 0]

def selfImageMemory : Memory (Build.bits .x86) :=
  loaded 0x400000 selfImageBytes (by decide) (by decide +kernel)

theorem selfImage_header : PeHeaderAt selfImageMemory 0x400000 0x40 :=
  ⟨by decide +kernel, by decide +kernel, by decide +kernel⟩

theorem selfImage_rva : selfImageMemory.word 4
    (importEntry (b := .x86) (0x400000 + BitVec.signExtend (Build.bits .x86) 0x40#32)) =
      some 200 := by
  decide +kernel

theorem selfImage_descriptors : Descriptors selfImageMemory 0x400000
    (rvaAddress (b := .x86) 0x400000 200) [(240, [107])] := by
  have hend : selfImageMemory.word 4
      (rvaAddress (b := .x86) 0x400000 200 + 20 + 16) = some 0 := by decide +kernel
  exact ⟨⟨1, by decide +kernel, by decide⟩, by decide +kernel, by decide +kernel, hend⟩

def selfImage : ImportImage selfImageMemory 0x400000 :=
  .imports selfImage_header 200 selfImage_rva (by decide) [(240, [107])] selfImage_descriptors

/-- A process with this module only. -/
def selfWorld : World :=
  { World.snapshotOf [0x400000] with
    getModuleHandle := fun name => if name = "k" then 0x400000 else nullptr
    getModuleHandle_mem := by
      intro name hne
      split at hne
      case isTrue h => simp [h, World.snapshotOf]
      case isFalse => exact absurd rfl hne }

theorem eq_of_mem_selfWorld {h : Handle} (hm : h ∈ selfWorld.universe ⟨7, 0x400000⟩) :
    h = 0x400000 := by
  simpa [World.universe, selfWorld, World.snapshotOf] using hm

def selfImages : ModuleImages .x86 selfWorld ⟨7, 0x400000⟩ where
  mem := selfImageMemory
  image _ hm := eq_of_mem_selfWorld hm ▸ selfImage

theorem scan_mapped_self :
    ∃ s, loadSymFromAppModules (selfWorld.withMemory selfImageMemory) ⟨7, 0x400000⟩
        (Process.fresh fun _ => true) = .ok s ∧
      ∀ a, a ∈ started s.calls ↔ selfImages.Linked a := by
  obtain ⟨s, hs⟩ := loadSymFromAppModules_ok (selfWorld.withMemory selfImageMemory) ⟨7, 0x400000⟩
    (p := Process.fresh fun _ => true) fun _ => rfl
  have hlimit : s.process.ctx.symbols.size < 166 := by
    rw [loadSymFromAppModules_of_no_restricts rfl hs]
    decide
  have hreach : ∀ a, selfImages.Linked a → selfImages.InReach a := by
    intro a ha hm
    cases eq_of_mem_selfWorld hm
    exact ImportImage.inReach_x86 _ selfImage_header
  obtain ⟨hsound, hcomplete⟩ := selfImages.scan_mapped hs
  refine ⟨s, hs, fun a => ⟨fun ha => (hsound hreach a ha).1, fun ha => ?_⟩⟩
  exact (hcomplete hlimit (fun c hc => (hsound hreach c hc).2) a ha).1

end Odbk
