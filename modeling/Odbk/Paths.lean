import Odbk.Lib.CString

/-!
# Paths in buffers of `_MAX_PATH` characters

`none` stands for an access outside of a buffer. Proved here:

* `odbkGetFilePath_eq`, `odbkGetFileTitle_eq`: both cut behind the last separator;
* `path_split_lossless`: the two parts of a path make up the path;
* `findDot_eq`: the loop of `odbk_replace_extension` is a search from the right;
* `odbkReplaceExtension_eq`, `replace_extension_iff`: what it leaves, and when that is right.
-/

namespace Odbk

open CString

/-- `_MAX_PATH` -/
def maxPath : Nat := 260

def backslash : UInt8 := 92
def slash : UInt8 := 47
def dot : UInt8 := 46

/-! ## The code -/

/-- `odbk_get_file_title` -/
def odbkGetFileTitle (fileName : CStr) (fileTitle : Buffer maxPath) : Option (Buffer maxPath) :=
  let slash1 := strrchr fileName backslash
  let slash2 := strrchr fileName slash
  match max slash1 slash2 with
  -- there's no path so the whole thing is the file title
  | none => strcpy fileTitle fileName
  | some pathEnd => strcpy fileTitle (fileName.drop (pathEnd + 1))

/-- `odbk_get_file_path` -/
def odbkGetFilePath (fileName : CStr) (path : Buffer maxPath) : Option (Buffer maxPath) :=
  let slash1 := strrchr fileName backslash
  let slash2 := strrchr fileName slash
  match max slash1 slash2 with
  -- there's no path on the file name
  | none => memcpy path 0 [0]
  | some pathEnd => do
    let length := pathEnd + 1
    let path ← memcpy path 0 (fileName.chars.take length)
    memcpy path length [0]

/-- The loop of `odbk_replace_extension`, from `dot = n - 1` down. -/
def findDot (fileName : Buffer maxPath) : Nat → Option Nat
  | 0 => none
  | i + 1 =>
    match fileName.bytes[i]? with
    | none => none
    | some c => if c = dot then some i else findDot fileName i

/-- `odbk_replace_extension`: the buffer and the result. -/
def odbkReplaceExtension (fileName : Buffer maxPath) (n : Nat) (ext : List UInt8) :
    Option (Buffer maxPath × Nat) := do
  let i ← findDot fileName n
  let fileName ← memcpy fileName (i + 1) ext
  pure (fileName, i + ext.length)

/-- `odbk_replace_extension` with a literal, whose size has the NUL. -/
def odbkReplaceExtensionLit (fileName : Buffer maxPath) (n : Nat) (ext : CStr) :
    Option (Buffer maxPath × Nat) :=
  odbkReplaceExtension fileName n ext.terminated

/-! ## The parts of a path -/

def isSeparator (c : UInt8) : Bool := c = backslash || c = slash

/-- The part up to the last separator. -/
def directory (f : CStr) : CStr where
  chars := f.chars.rdropWhile fun c => !isSeparator c
  noNul h := f.noNul ((List.rdropWhile_prefix _ _).subset h)

/-- The part behind the last separator. -/
def title (f : CStr) : CStr where
  chars := f.chars.rtakeWhile fun c => !isSeparator c
  noNul h := f.noNul ((List.rtakeWhile_suffix _ _).subset h)

theorem directory_append_title (f : CStr) : directory f ++ title f = f :=
  CStr.ext List.rdropWhile_append_rtakeWhile

theorem length_parts (f : CStr) : (directory f).length + (title f).length = f.length := by
  rw [← CStr.length_append, directory_append_title]

theorem title_separator {f : CStr} : ∀ c ∈ (title f).chars, isSeparator c = false := by
  intro c hc
  simpa using List.mem_rtakeWhile_imp hc

theorem title_eq_self {f : CStr} (h : ∀ c ∈ f.chars, isSeparator c = false) : title f = f := by
  refine CStr.ext (List.rtakeWhile_eq_self_iff.mpr fun c hc => ?_)
  rw [h c hc]
  rfl

theorem directory_ends (f : CStr) :
    (directory f).chars = [] ∨
      ∃ c, (directory f).chars.getLast? = some c ∧ isSeparator c = true := by
  by_cases h : (directory f).chars = []
  · exact Or.inl h
  · refine Or.inr ⟨_, List.getLast?_eq_some_getLast h, ?_⟩
    have hlast : ¬(!isSeparator ((directory f).chars.getLast h)) = true :=
      List.rdropWhile_last_not (fun c => !isSeparator c) f.chars h
    simpa using hlast

/-- The later one of the two slashes is the last separator. -/
theorem lastSeparator_eq (f : CStr) :
    max (strrchr f backslash) (strrchr f slash) = lastIdx isSeparator f.chars :=
  max_lastIdx _ _ _

theorem odbkGetFileTitle_eq (f : CStr) (fileTitle : Buffer maxPath) :
    odbkGetFileTitle f fileTitle = strcpy fileTitle (title f) := by
  rw [odbkGetFileTitle, lastSeparator_eq]
  cases h : lastIdx isSeparator f.chars with
  | none =>
    have ht : f = title f := CStr.ext (rtakeWhile_of_lastIdx_none _ h).symm
    exact congrArg (strcpy fileTitle) ht
  | some i =>
    have ht : f.drop (i + 1) = title f := CStr.ext (drop_lastIdx _ h)
    exact congrArg (strcpy fileTitle) ht

theorem odbkGetFilePath_eq {f : CStr} (path : Buffer maxPath)
    (h : (directory f).length < maxPath) :
    ∃ path', odbkGetFilePath f path = some path' ∧ text path' = some (directory f) := by
  rw [odbkGetFilePath, lastSeparator_eq]
  cases hl : lastIdx isSeparator f.chars with
  | none =>
    have he : directory f = ⟨[], List.not_mem_nil⟩ :=
      CStr.ext (rdropWhile_of_lastIdx_none _ hl)
    rw [he]
    exact strcpy_eq path (s := ⟨[], List.not_mem_nil⟩) (by decide)
  | some i =>
    have hd : f.chars.take (i + 1) = (directory f).chars := take_lastIdx _ hl
    have hlen : i + 1 = (directory f).length := by
      rw [CStr.length, ← hd, List.length_take]
      have := lastIdx_lt _ hl
      omega
    have hfit : 0 + (directory f).chars.length ≤ maxPath := by
      rw [Nat.zero_add]
      exact h.le
    obtain ⟨b, hb, hbytes⟩ := memcpy_eq path hfit
    have htake : b.bytes.take (i + 1) = (directory f).chars := by
      rw [hbytes, hlen, List.take_zero, List.nil_append]
      exact List.take_left
    obtain ⟨b', hb', ht⟩ := memcpy_terminated (s := ⟨[], List.not_mem_nil⟩) htake hlen h
    refine ⟨b', ?_, ht.trans (congrArg some (CStr.ext (List.append_nil _)))⟩
    rw [← hd] at hb
    exact (congrArg (Option.bind · _) hb).trans hb'

/-- **Splitting.** A path that fits is its directory and its title, the title without
a separator and the directory with one at its end. -/
theorem path_split_lossless {f : CStr} (h : f.length < maxPath)
    (path fileTitle : Buffer maxPath) :
    ∃ path' title' p t,
      odbkGetFilePath f path = some path' ∧ text path' = some p ∧
      odbkGetFileTitle f fileTitle = some title' ∧ text title' = some t ∧
      p ++ t = f ∧ (∀ c ∈ t.chars, isSeparator c = false) ∧
      (p.chars = [] ∨ ∃ c, p.chars.getLast? = some c ∧ isSeparator c = true) := by
  have hparts := length_parts f
  obtain ⟨path', hp, hpt⟩ := odbkGetFilePath_eq path (f := f) (by omega)
  obtain ⟨title', ht, htt⟩ := strcpy_eq fileTitle (s := title f) (by omega)
  exact ⟨path', title', directory f, title f, hp, hpt, (odbkGetFileTitle_eq f _).trans ht, htt,
    directory_append_title f, title_separator, directory_ends f⟩

/-- `C:/a\b`, cut behind the backslash. -/
theorem path_split_mixed :
    ∃ path' title' p t,
      odbkGetFilePath ⟨[67, 58, 47, 97, 92, 98], by decide⟩ (.filled 1) =
        some path' ∧ text path' = some p ∧
      odbkGetFileTitle ⟨[67, 58, 47, 97, 92, 98], by decide⟩ (.filled 1) =
        some title' ∧ text title' = some t ∧
      p ++ t = ⟨[67, 58, 47, 97, 92, 98], by decide⟩ ∧
      (∀ c ∈ t.chars, isSeparator c = false) ∧
      (p.chars = [] ∨ ∃ c, p.chars.getLast? = some c ∧ isSeparator c = true) :=
  path_split_lossless (by decide) _ _

/-! ## Replacing an extension -/

def isDot (c : UInt8) : Bool := c = dot

/-- The part up to the last dot. -/
def stem (f : CStr) : CStr where
  chars := f.chars.rdropWhile fun c => !isDot c
  noNul h := f.noNul ((List.rdropWhile_prefix _ _).subset h)

def dotString : CStr := ⟨[dot], by decide⟩

/-- The path with another extension: the last component up to its last dot, or whole with
a dot behind it, and the extension. -/
def withExtension (f ext : CStr) : CStr :=
  directory f ++ (if dot ∈ (title f).chars then stem (title f) else title f ++ dotString) ++ ext

/-- What `odbk_replace_extension` should do to a path in a buffer: stay inside, and leave
the new name and return its length if it fits. -/
def ReplacesExtension (f ext : CStr) (fileName : Buffer maxPath) : Prop :=
  ∃ fileName' result,
    odbkReplaceExtensionLit fileName f.length ext = some (fileName', result) ∧
      ((withExtension f ext).length < maxPath →
        text fileName' = some (withExtension f ext) ∧ result = (withExtension f ext).length)

/-- The loop is a search from the right. -/
theorem findDot_eq (b : Buffer maxPath) {n : Nat} (h : n ≤ maxPath) :
    findDot b n = lastIdx isDot (b.bytes.take n) := by
  induction n with
  | zero => rfl
  | succ i ih =>
    have hi : i < b.bytes.length := by
      rw [b.length_eq]
      omega
    have hlen : (b.bytes.take i).length = i := List.length_take_of_le hi.le
    rw [findDot, List.getElem?_eq_getElem hi, ih (by omega), List.take_succ_eq_append_getElem hi,
      lastIdx_concat, hlen]
    simp only [isDot, decide_eq_true_eq]

section Replace

variable {f ext : CStr} {fileName : Buffer maxPath}

theorem findDot_of_text (h : text fileName = some f) :
    findDot fileName f.length = lastIdx isDot f.chars := by
  obtain ⟨rest, hb⟩ := text_eq_some_iff.mp h
  have htake : fileName.bytes.take f.length = f.chars := by
    rw [hb, CStr.terminated, List.append_assoc, CStr.length, List.take_left]
  rw [findDot_eq fileName (length_lt_of_text h).le, htake]

/-- **Without a dot** the loop leaves the buffer. -/
theorem odbkReplaceExtension_noDot (ext : CStr) (h : text fileName = some f) (hd : dot ∉ f.chars) :
    odbkReplaceExtensionLit fileName f.length ext = none := by
  have hnone : lastIdx isDot f.chars = none := by
    rw [lastIdx_eq_none_iff]
    exact fun c hc => decide_eq_false fun he => hd (he ▸ hc)
  rw [odbkReplaceExtensionLit, odbkReplaceExtension, findDot_of_text h, hnone]
  rfl

/-- **With a dot** what is behind the last one is replaced, if there is room for it. -/
theorem odbkReplaceExtension_dot (ext : CStr) (h : text fileName = some f) (hd : dot ∈ f.chars) :
    if (stem f).length + ext.length < maxPath then
      ∃ fileName', odbkReplaceExtensionLit fileName f.length ext =
          some (fileName', (stem f).length + ext.length) ∧
        text fileName' = some (stem f ++ ext)
    else odbkReplaceExtensionLit fileName f.length ext = none := by
  cases hl : lastIdx isDot f.chars with
  | none =>
    have hdot := (lastIdx_eq_none_iff isDot).mp hl dot hd
    exact absurd hdot (by decide)
  | some i =>
    have hstem : f.chars.take (i + 1) = (stem f).chars := take_lastIdx _ hl
    have hi := lastIdx_lt _ hl
    have hlen : i + 1 = (stem f).length := by
      rw [CStr.length, ← hstem, List.length_take]
      omega
    obtain ⟨rest, hb⟩ := text_eq_some_iff.mp h
    have htake : fileName.bytes.take (i + 1) = (stem f).chars := by
      rw [hb, CStr.terminated, List.append_assoc, List.take_append_of_le_length hi, hstem]
    have heq : odbkReplaceExtensionLit fileName f.length ext =
        (memcpy fileName (i + 1) ext.terminated).map fun b => (b, i + ext.terminated.length) := by
      rw [odbkReplaceExtensionLit, odbkReplaceExtension, findDot_of_text h, hl, Option.map_eq_bind]
      rfl
    rw [heq]
    split
    case isTrue hfit =>
      obtain ⟨b, hw, ht⟩ := memcpy_terminated htake hlen hfit
      refine ⟨b, ?_, ht⟩
      rw [hw, Option.map_some, CStr.length_terminated, ← hlen]
      simp only [Option.some.injEq, Prod.mk.injEq, true_and]
      omega
    case isFalse hfit =>
      rw [memcpy_eq_none (by rw [CStr.length_terminated]; omega)]
      rfl

theorem withExtension_of_dot (hd : dot ∈ (title f).chars) :
    withExtension f ext = stem f ++ ext := by
  have hstem : directory f ++ stem (title f) = stem f := by
    refine CStr.ext ?_
    have happ := rdropWhile_append_of_mem (fun c => !isDot c) (l := (directory f).chars) hd
      (by decide)
    rw [← CStr.chars_append, directory_append_title] at happ
    exact happ.symm
  rw [withExtension, if_pos hd, hstem]

theorem length_withExtension (hd : dot ∉ (title f).chars) :
    (withExtension f ext).length = f.length + 1 + ext.length := by
  have hparts := length_parts f
  rw [withExtension, if_neg hd, CStr.length_append, CStr.length_append, CStr.length_append]
  have hdot : dotString.length = 1 := rfl
  omega

theorem length_stem_le (f : CStr) : (stem f).length ≤ f.length :=
  (List.rdropWhile_prefix _ _).length_le

/-- A result is the right one if it is the new name wherever that fits. -/
theorem replacesExtension_of_some {fileName' : Buffer maxPath} {result : Nat} {name : CStr}
    (hcode : odbkReplaceExtensionLit fileName f.length ext = some (fileName', result))
    (htext : text fileName' = some name) :
    ReplacesExtension f ext fileName ↔
      ((withExtension f ext).length < maxPath →
        name = withExtension f ext ∧ result = (withExtension f ext).length) := by
  constructor
  · rintro ⟨b, r, hcode', hname⟩ hlt
    rw [hcode, Option.some.injEq, Prod.mk.injEq] at hcode'
    obtain ⟨rfl, rfl⟩ := hcode'
    have hright := hname hlt
    rwa [htext, Option.some.injEq] at hright
  · intro hname
    refine ⟨fileName', result, hcode, fun hlt => ?_⟩
    rw [htext, (hname hlt).1]
    exact ⟨rfl, (hname hlt).2⟩

theorem not_replacesExtension_of_none
    (hcode : odbkReplaceExtensionLit fileName f.length ext = none) :
    ¬ ReplacesExtension f ext fileName := by
  rintro ⟨_, _, hsome, _⟩
  rw [hcode] at hsome
  cases hsome

end Replace

/-- **Extensions.** The function stays in the buffer and replaces the extension exactly
when the path has a dot, what is written fits, and the last component has the dot or the
new name would not fit. -/
theorem replace_extension_iff {f : CStr} {fileName : Buffer maxPath}
    (h : text fileName = some f) (ext : CStr) :
    ReplacesExtension f ext fileName ↔
      dot ∈ f.chars ∧ (stem f).length + ext.length < maxPath ∧
        (dot ∈ (title f).chars ∨ maxPath ≤ f.length + 1 + ext.length) := by
  by_cases hd : dot ∈ f.chars
  · have hcode := odbkReplaceExtension_dot ext h hd
    by_cases hfit : (stem f).length + ext.length < maxPath
    · rw [if_pos hfit] at hcode
      obtain ⟨fileName', hcode, htext⟩ := hcode
      rw [replacesExtension_of_some hcode htext]
      by_cases ht : dot ∈ (title f).chars
      · rw [withExtension_of_dot ht]
        exact iff_of_true (fun _ => ⟨rfl, (CStr.length_append _ _).symm⟩) ⟨hd, hfit, Or.inl ht⟩
      · rw [length_withExtension ht]
        have hle := length_stem_le f
        constructor
        · intro hname
          refine ⟨hd, hfit, Or.inr (Nat.not_lt.mp fun hlt => ?_)⟩
          -- a dot in the directory gives a name that is too short
          have hlen := (hname hlt).2
          omega
        · rintro ⟨_, _, hno⟩ hlt
          exact absurd (hno.resolve_left ht) (by omega)
    · rw [if_neg hfit] at hcode
      exact iff_of_false (not_replacesExtension_of_none hcode) fun hc => hfit hc.2.1
  · exact iff_of_false (not_replacesExtension_of_none (odbkReplaceExtension_noDot ext h hd))
      fun hc => hd hc.1

def pdb : CStr := ⟨[112, 100, 98], by decide⟩

/-- `a.d\p.x` becomes `a.d\p.pdb`. -/
theorem replace_extension_iff_exe :
    ∃ fileName : Buffer maxPath, text fileName = some ⟨[97, 46, 100, 92, 112, 46, 120], by decide⟩ ∧
      ReplacesExtension ⟨[97, 46, 100, 92, 112, 46, 120], by decide⟩ pdb fileName := by
  obtain ⟨fileName, _, h⟩ := strcpy_eq (n := maxPath) (.filled 1)
    (s := ⟨[97, 46, 100, 92, 112, 46, 120], by decide⟩) (by decide)
  exact ⟨fileName, h, (replace_extension_iff h pdb).mpr (by decide)⟩

/-- The empty path has no dot and the loop leaves the buffer; `a.d\p` has one in its
directory only and becomes `a.pdb`. -/
theorem empty_path_and_directory_dot :
    (∃ fileName : Buffer maxPath, text fileName = some ⟨[], by decide⟩ ∧
      odbkReplaceExtensionLit fileName 0 pdb = none ∧
      ¬ ReplacesExtension ⟨[], by decide⟩ pdb fileName) ∧
    ∃ fileName fileName' : Buffer maxPath,
      text fileName = some ⟨[97, 46, 100, 92, 112], by decide⟩ ∧
      odbkReplaceExtensionLit fileName 5 pdb = some (fileName', 5) ∧
      text fileName' = some ⟨[97, 46, 112, 100, 98], by decide⟩ ∧
      ¬ ReplacesExtension ⟨[97, 46, 100, 92, 112], by decide⟩ pdb fileName := by
  constructor
  · obtain ⟨fileName, _, h⟩ := strcpy_eq (n := maxPath) (.filled 1) (s := ⟨[], by decide⟩)
      (by decide)
    have hcode := odbkReplaceExtension_noDot pdb h (by decide)
    exact ⟨fileName, h, hcode, not_replacesExtension_of_none hcode⟩
  · obtain ⟨fileName, _, h⟩ := strcpy_eq (n := maxPath) (.filled 1)
      (s := ⟨[97, 46, 100, 92, 112], by decide⟩) (by decide)
    have hcode := odbkReplaceExtension_dot pdb h (by decide)
    rw [if_pos (by decide)] at hcode
    obtain ⟨fileName', hcode, htext⟩ := hcode
    refine ⟨fileName, fileName', h, hcode, htext, ?_⟩
    rw [replacesExtension_of_some hcode htext]
    decide

end Odbk
