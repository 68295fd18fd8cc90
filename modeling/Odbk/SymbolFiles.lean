import Odbk.ScanLog
import Odbk.LocateSymFile
import Odbk.PeImage

/-!
# Symbol files in a scan

The answers about files that the scan uses are computed by `odbk_replace_extension` and
`locate_sym_file` from paths in buffers. Here they are, over the files there are, and a
scan over them. Proved here:

* `pdbExists_eq`, `located_eq`: what the two functions answer for a module whose paths fit
  in the buffers;
* `pdb_tried_iff`: for which modules a scan loads the renamed `pdb` file;
* `warnings_exact`: which symbol files the warnings of a scan name; all of them exist.
-/

namespace Odbk

open CString VisitedWalk

/-! ## The code -/

/-- The files there are, and the names that the system and dbghelp give for a module. -/
structure SymbolFiles where
  /-- `odbk_file_exists` -/
  exist : CStr → Bool
  /-- `GetModuleFileNameExA` -/
  moduleFileName : Handle → CStr
  symGetModuleInfo64 : Handle → SymSource → Option (SymType × ImagehlpModule64)
  /-- what a buffer on the stack holds before it is written to -/
  stack : Buffer maxPath

namespace SymbolFiles

/-- The test of `load_sym_from_module` for a `pdb` file named after the module. -/
def pdbExists (F : SymbolFiles) (hModule : Handle) : Option Bool := do
  let moduleFileName := F.moduleFileName hModule
  let pdbFileName ← strcpy F.stack moduleFileName
  let (pdbFileName, _) ← odbkReplaceExtensionLit pdbFileName moduleFileName.length pdb
  let path ← text pdbFileName
  return F.exist path

/-- The name that `locate_sym_file` leaves in `symbolFileName` when it is true. -/
def located (F : SymbolFiles) (hModule : Handle) (source : SymSource) : Option CStr := do
  let (_, module) ← F.symGetModuleInfo64 hModule source
  let (found, symbolFileName) ← locateSymFile F.exist module F.stack F.stack F.stack
  if found then text symbolFileName else none

end SymbolFiles

def CStr.toString (s : CStr) : String := nameString s.chars

/-- A world whose answers about files are those of the code. -/
def World.withFiles (W : World) (F : SymbolFiles) : World :=
  { W with
    moduleFileName := fun h => CStr.toString (F.moduleFileName h)
    symGetModuleInfo64 := fun h source =>
      (F.symGetModuleInfo64 h source).map fun r => ⟨r.1, CStr.toString r.2.cvData⟩
    pdbFileExists := fun h => (F.pdbExists h).getD false
    locateSymFile := fun h source => (F.located h source).map CStr.toString }

/-! ## What the two functions answer -/

/-- The first path at which `locate_sym_file` looks and there is a file. -/
def firstExisting (exist : CStr → Bool) (m : ImagehlpModule64) : Option CStr :=
  if exist m.cvData then some m.cvData
  else if exist (besideImage m) then some (besideImage m) else none

theorem exist_firstExisting {exist : CStr → Bool} {m : ImagehlpModule64} {path : CStr}
    (h : firstExisting exist m = some path) : exist path = true := by
  unfold firstExisting at h
  split at h
  case isTrue he =>
    cases h
    exact he
  case isFalse =>
    split at h
    case isTrue he =>
      cases h
      exact he
    case isFalse => cases h

namespace SymbolFiles

/-- The paths of a module fit in the buffers they are copied to, and its last component has
an extension to replace. -/
structure Fits (F : SymbolFiles) (h : Handle) : Prop where
  name : (F.moduleFileName h).length < maxPath
  extension : dot ∈ (title (F.moduleFileName h)).chars
  pdb : (stem (F.moduleFileName h)).length + pdb.length < maxPath
  info : ∀ source t m, F.symGetModuleInfo64 h source = some (t, m) →
    if F.exist m.cvData then m.cvData.length < maxPath
    else (directory m.loadedImageName).length + (title m.cvData).length < maxPath

variable {F : SymbolFiles} {h : Handle}

/-- The path with the extension `pdb` is looked for. -/
theorem pdbExists_eq (hf : F.Fits h) :
    F.pdbExists h = some (F.exist (withExtension (F.moduleFileName h) Odbk.pdb)) := by
  obtain ⟨b, hb, ht⟩ := strcpy_eq F.stack hf.name
  have hdot : dot ∈ (F.moduleFileName h).chars :=
    (List.rtakeWhile_suffix _ _).subset hf.extension
  have hcode := odbkReplaceExtension_dot Odbk.pdb ht hdot
  rw [if_pos hf.pdb] at hcode
  obtain ⟨b', hb', ht'⟩ := hcode
  simp only [pdbExists, hb, Option.bind_eq_bind, Option.bind_some, hb', ht',
    withExtension_of_dot hf.extension]
  rfl

/-- The first of the two paths at which there is a file is left in the buffer. -/
theorem located_eq (hf : F.Fits h) (source : SymSource) :
    F.located h source =
      (F.symGetModuleInfo64 h source).bind fun r => firstExisting F.exist r.2 := by
  unfold located
  cases hi : F.symGetModuleInfo64 h source with
  | none => rfl
  | some r =>
    obtain ⟨t, m⟩ := r
    have hfit := hf.info source t m hi
    simp only [Option.bind_eq_bind, Option.bind_some, firstExisting]
    cases he : F.exist m.cvData with
    | true =>
      rw [he, if_pos rfl] at hfit
      obtain ⟨b, hb, ht⟩ := locateSymFile_cvData F.exist m F.stack F.stack F.stack he
      rw [if_pos hfit] at ht
      simp only [hb, Option.bind_some, if_true, ht]
    | false =>
      rw [he, if_neg Bool.false_ne_true, ← length_besideImage] at hfit
      obtain ⟨b, hb, ht⟩ := locateSymFile_beside F.exist m F.stack F.stack F.stack he hfit
      simp only [hb, Option.bind_some]
      cases hbeside : F.exist (besideImage m) with
      | true => simp only [if_true, ht hbeside, Bool.false_eq_true, if_false]
      | false => simp only [Bool.false_eq_true, if_false]

end SymbolFiles

theorem pdbFileExists_withFiles (W : World) {F : SymbolFiles} {h : Handle} (hf : F.Fits h) :
    (W.withFiles F).pdbFileExists h = F.exist (withExtension (F.moduleFileName h) pdb) := by
  change (F.pdbExists h).getD false = _
  rw [SymbolFiles.pdbExists_eq hf, Option.getD_some]

/-! ## The `pdb` files that are tried -/

/-- The image has no symbols and there is a file of its name with the extension `pdb`. -/
def TriesPdb (W : World) (h : Handle) : Prop :=
  (∃ m, W.symGetModuleInfo64 h .image = some m ∧ m.symType = .symNone) ∧
    W.pdbFileExists h = true

theorem openSymbols_pdb {W : World} {dbghelp : DbgFn → Bool} {h : Handle} {o : Opened}
    (ho : openSymbols W dbghelp h = .ok o) (a : Handle) :
    .symLoadModule64 a .pdb ∈ o.calls ↔ a = h ∧ TriesPdb W h := by
  have ho' := openSymbols_pointers ho
  unfold openSymbols at ho'
  simp only [callDbg, if_true, bind, Except.bind, pure, Except.pure] at ho'
  unfold TriesPdb
  cases hi : W.symGetModuleInfo64 h .image with
  | none =>
    rw [hi] at ho'
    cases ho'
    simp
  | some m =>
    rw [hi] at ho'
    simp only at ho'
    split at ho'
    case isTrue hp =>
      have hcalls : o.calls = [.symLoadModule64 h .image, .symLoadModule64 h .pdb] := by
        split at ho' <;> cases ho' <;> rfl
      rw [hcalls]
      simp [hp.1, hp.2]
    case isFalse hp =>
      cases ho'
      simpa using fun _ => hp

/-- The calls of a visit that load a `pdb` file. -/
theorem visitModule_pdb {W : World} {core : OdbkCore} {h : Handle} {s s' : Scan} {b : Bool}
    (hv : visitModule W core h s = .ok (s', b)) (a : Handle) :
    .symLoadModule64 a .pdb ∈ s'.calls ↔
      .symLoadModule64 a .pdb ∈ s.calls ∨ a = h ∧ TriesPdb W h := by
  obtain ⟨o, found, s₁, ho, he, hr⟩ := visitModule_ok hv
  have hwarn := warnSymFile_calls W h o.source o.info ((s.markLoaded h).record o.calls)
  generalize warnSymFile W h o.source o.info ((s.markLoaded h).record o.calls) = s₀ at he hwarn
  have hcalls : s₀.calls = s.calls ++ o.calls := hwarn
  have henum : .symLoadModule64 a .pdb ∈ s₁.calls ↔ .symLoadModule64 a .pdb ∈ s₀.calls := by
    rcases enumSymbols_ok he with ⟨_, _, rfl⟩ | ⟨_, _, _, rfl⟩
    · exact Iff.rfl
    · simp [Scan.record]
  rw [(report_spec hr).1, henum, hcalls, List.mem_append, openSymbols_pdb ho]

theorem ScanRun.mem_pdb {W : World} {core : OdbkCore} {p : Process} {vs : List (Visit Handle Scan)}
    {s : Scan} (h : ScanRun W core p vs s) (a : Handle) :
    .symLoadModule64 a .pdb ∈ s.calls ↔ a ∈ vs.map Visit.node ∧ TriesPdb W a := by
  have hiff := (Run.chain h).iff_exists (P := fun t => .symLoadModule64 a .pdb ∈ t.calls)
    (c := fun b => a = b ∧ TriesPdb W b) (by
      intro v hv
      obtain ⟨_, _, hvis⟩ := Run.of_mem h hv
      obtain ⟨b, hb, _⟩ := walker_visit hvis
      exact visitModule_pdb hb a)
  have hinit : .symLoadModule64 a .pdb ∉ (Scan.init p).calls := List.not_mem_nil
  rw [hiff, or_iff_right hinit]
  constructor
  · rintro ⟨b, hb, rfl, ht⟩
    exact ⟨hb, ht⟩
  · rintro ⟨ha, ht⟩
    exact ⟨a, ha, rfl, ht⟩

/-- **Renamed symbol files.** Over files a scan loads the `pdb` file of exactly the modules
it starts whose image has no symbols and next to which there is a file with their name and
the extension `pdb`. -/
theorem pdb_tried_iff {W : World} {F : SymbolFiles} {core : OdbkCore} {p : Process} {s : Scan}
    (h : loadSymFromAppModules (W.withFiles F) core p = .ok s)
    (hfits : ∀ a ∈ started s.calls, F.Fits a) (a : Handle) :
    .symLoadModule64 a .pdb ∈ s.calls ↔ a ∈ started s.calls ∧
      (∃ m, F.symGetModuleInfo64 a .image = some (.symNone, m)) ∧
      F.exist (withExtension (F.moduleFileName a) pdb) = true := by
  obtain ⟨vs, hrun⟩ := scanRun_of_ok h
  rw [hrun.started] at hfits ⊢
  rw [hrun.mem_pdb]
  refine and_congr_right fun ha => ?_
  have hexists := pdbFileExists_withFiles W (hfits a ha)
  have hinfo : (W.withFiles F).symGetModuleInfo64 a .image =
      (F.symGetModuleInfo64 a .image).map fun r => ⟨r.1, CStr.toString r.2.cvData⟩ := rfl
  rw [TriesPdb, hexists, hinfo]
  refine and_congr_left' ?_
  cases F.symGetModuleInfo64 a .image with
  | none => simp
  | some r => simp [Prod.ext_iff]

def exeName : CStr := ⟨[97, 46, 101, 120, 101], by decide⟩

def pdbName : CStr := ⟨[97, 46, 112, 100, 98], by decide⟩

/-- `a.exe` without symbols of its own, and `a.pdb`, which has exports only. -/
def renamedPdb : SymbolFiles where
  exist path := decide (path = pdbName)
  moduleFileName _ := exeName
  symGetModuleInfo64 _
    | .image => some (.symNone, ⟨exeName, pdbName, by decide, by decide⟩)
    | .pdb => some (.symExport, ⟨exeName, pdbName, by decide, by decide⟩)
  stack := .filled 1

/-- A process with one module, whose symbols can be loaded from either file. -/
def renamedWorld : World :=
  { World.snapshotOf [1] with symLoadModule64 := fun h _ => h }

theorem fits_renamedPdb (h : Handle) : renamedPdb.Fits h where
  name := (by decide : exeName.length < maxPath)
  extension := (by decide : dot ∈ (title exeName).chars)
  pdb := (by decide : (stem exeName).length + pdb.length < maxPath)
  info source t m hm := by
    cases source <;> cases hm <;> decide

theorem pdb_tried_renamedPdb :
    ∃ s, loadSymFromAppModules (renamedWorld.withFiles renamedPdb) ⟨7, 3⟩
        (Process.fresh fun _ => true) = .ok s ∧
      (.symLoadModule64 1 .pdb ∈ s.calls ↔ 1 ∈ started s.calls ∧
        (∃ m, renamedPdb.symGetModuleInfo64 1 .image = some (.symNone, m)) ∧
        renamedPdb.exist (withExtension (renamedPdb.moduleFileName 1) pdb) = true) := by
  obtain ⟨s, hs⟩ := loadSymFromAppModules_ok (renamedWorld.withFiles renamedPdb) ⟨7, 3⟩
    (p := Process.fresh fun _ => true) fun _ => rfl
  exact ⟨s, hs, pdb_tried_iff hs (fun a _ => fits_renamedPdb a) 1⟩

/-! ## The files that warnings name -/

/-- The module information that a scan has of a module in the end. -/
def SymbolFiles.opened (F : SymbolFiles) (W : World) (h : Handle) :
    Option (SymType × ImagehlpModule64) :=
  (F.symGetModuleInfo64 h .image).bind fun r =>
    if r.1 = .symNone ∧ F.exist (withExtension (F.moduleFileName h) pdb) then
      if W.symLoadModule64 h .pdb ≠ 0 then F.symGetModuleInfo64 h .pdb else none
    else some r

/-- The symbol file of a module that has no symbols of its own, though it names a file. -/
def SymbolFiles.mismatch (F : SymbolFiles) (W : World) (h : Handle) : Option CStr :=
  (F.opened W h).bind fun r =>
    if r.2.cvData.chars ≠ [] ∧ (r.1 = .symExport ∨ r.1 = .symNone) then
      firstExisting F.exist r.2
    else none

theorem toString_ne_empty {s : CStr} : CStr.toString s ≠ "" ↔ s.chars ≠ [] := by
  refine not_congr ⟨fun h => nameString_injective (h.trans rfl), fun h => ?_⟩
  rw [CStr.toString, h]
  rfl

/-- The module information after the symbols were loaded is that of the file they were
loaded from. -/
theorem openSymbols_files (W : World) {F : SymbolFiles} {h : Handle} (hf : F.Fits h) :
    ∃ o, openSymbols (W.withFiles F) (fun _ => true) h = .ok o ∧
      o.info = (F.opened W h).map (fun r => ⟨r.1, CStr.toString r.2.cvData⟩) ∧
      ∀ r, F.opened W h = some r → F.symGetModuleInfo64 h o.source = some r := by
  have hinfo : ∀ source, (W.withFiles F).symGetModuleInfo64 h source =
      (F.symGetModuleInfo64 h source).map fun r => ⟨r.1, CStr.toString r.2.cvData⟩ :=
    fun _ => rfl
  have hbase : (W.withFiles F).symLoadModule64 h .pdb = W.symLoadModule64 h .pdb := rfl
  simp only [openSymbols, callDbg, if_true, bind, Except.bind, pure, Except.pure, hinfo, hbase,
    pdbFileExists_withFiles W hf, SymbolFiles.opened]
  cases hi : F.symGetModuleInfo64 h .image with
  | none => exact ⟨_, rfl, rfl, fun r hr => by cases hr⟩
  | some r =>
    simp only [Option.map_some, Option.bind_some]
    by_cases hp : r.1 = .symNone ∧ F.exist (withExtension (F.moduleFileName h) pdb) = true
    · simp only [if_pos hp]
      by_cases hb : W.symLoadModule64 h .pdb ≠ 0
      · simp only [if_pos hb]
        exact ⟨_, rfl, rfl, fun r hr => hr⟩
      · simp only [if_neg hb]
        exact ⟨_, rfl, rfl, fun r hr => by cases hr⟩
    · simp only [if_neg hp]
      exact ⟨_, rfl, rfl, fun r hr => hi.trans hr⟩

/-- **The warning** about a module names the file found. -/
theorem symWarning_files (W : World) {F : SymbolFiles} {h : Handle} (hf : F.Fits h) :
    symWarning (W.withFiles F) h =
      ((F.mismatch W h).map fun file =>
        warning1002 (CStr.toString file) (CStr.toString (F.moduleFileName h))).toList := by
  obtain ⟨⟨base, source, info, calls⟩, ho, hinfo, hsource⟩ := openSymbols_files W hf
  rw [symWarning, ho, SymbolFiles.mismatch]
  simp only at hinfo hsource
  subst hinfo
  cases hopened : F.opened W h with
  | none => rfl
  | some r =>
    have hlocate : (W.withFiles F).locateSymFile h source =
        (firstExisting F.exist r.2).map CStr.toString := by
      change (F.located h source).map CStr.toString = _
      rw [SymbolFiles.located_eq hf, hsource r hopened, Option.bind_some]
    simp only [Option.map_some, Option.bind_some, hlocate, toString_ne_empty]
    by_cases hm : r.2.cvData.chars ≠ [] ∧ (r.1 = .symExport ∨ r.1 = .symNone)
    · rw [if_pos hm, if_pos hm]
      cases firstExisting F.exist r.2 <;> rfl
    · rw [if_neg hm, if_neg hm]
      rfl

theorem mismatch_exists {W : World} {F : SymbolFiles} {h : Handle} {file : CStr}
    (hm : F.mismatch W h = some file) : F.exist file = true := by
  obtain ⟨r, _, hr⟩ := Option.bind_eq_some_iff.mp hm
  split at hr
  · exact exist_firstExisting hr
  · cases hr

theorem foundLines_not_warn (W : World) (h : Handle) (size size' : Nat) :
    (foundLines W h size size').filter (fun m => m.type = .warn) = [] := by
  unfold foundLines
  split
  · split <;> rfl
  · rfl

/-- The warnings among the lines of some visits. -/
theorem filter_scanLog {W : World} {F : SymbolFiles} {l : List Handle} (hfits : ∀ a ∈ l, F.Fits a)
    (restricts : List String) (symbols : Symbols) :
    (scanLog (W.withFiles F) restricts symbols l).filter (fun m => m.type = .warn) =
      l.filterMap fun a => (F.mismatch W a).map fun file =>
        warning1002 (CStr.toString file) (CStr.toString (F.moduleFileName a)) := by
  induction l generalizing symbols with
  | nil => rfl
  | cons a l ih =>
    have hall := ih fun b hb => hfits b (List.mem_cons_of_mem _ hb)
    rw [scanLog, List.filter_append, List.filter_append, foundLines_not_warn, hall,
      symWarning_files W (hfits a List.mem_cons_self), List.append_nil]
    cases hm : F.mismatch W a with
    | none =>
      rw [List.filterMap_cons_none (by rw [hm]; rfl)]
      rfl
    | some file =>
      rw [List.filterMap_cons_some (by rw [hm]; rfl)]
      rfl

/-- **Warnings.** Over files a scan warns about exactly the modules it starts that have no
symbols of their own and name a symbol file that is there, in order; and each file that it
names exists. -/
theorem warnings_exact {W : World} {F : SymbolFiles} {core : OdbkCore} {p : Process} {s : Scan}
    (h : loadSymFromAppModules (W.withFiles F) core p = .ok s)
    (hfits : ∀ a ∈ started s.calls, F.Fits a) :
    ∃ lines, s.process.log = p.log ++ lines ∧
      (lines.filter fun m => m.type = .warn) =
        ((started s.calls).filterMap fun a => (F.mismatch W a).map fun file =>
          warning1002 (CStr.toString file) (CStr.toString (F.moduleFileName a))) ∧
      ∀ a file, F.mismatch W a = some file → F.exist file = true := by
  obtain ⟨vs, hrun⟩ := scanRun_of_ok h
  rw [hrun.started] at hfits ⊢
  exact ⟨_, hrun.log, filter_scanLog hfits _ _, fun _ _ => mismatch_exists⟩

theorem warnings_renamedPdb :
    ∃ s lines, loadSymFromAppModules (renamedWorld.withFiles renamedPdb) ⟨7, 3⟩
        (Process.fresh fun _ => true) = .ok s ∧ s.process.log = lines ∧
      (lines.filter fun m => m.type = .warn) = (started s.calls).filterMap fun a =>
        (renamedPdb.mismatch renamedWorld a).map fun file =>
          warning1002 (CStr.toString file) (CStr.toString (renamedPdb.moduleFileName a)) := by
  obtain ⟨s, hs⟩ := loadSymFromAppModules_ok (renamedWorld.withFiles renamedPdb) ⟨7, 3⟩
    (p := Process.fresh fun _ => true) fun _ => rfl
  obtain ⟨lines, hlog, hwarn, _⟩ := warnings_exact hs fun a _ => fits_renamedPdb a
  exact ⟨s, lines, hs, hlog, hwarn⟩

end Odbk
