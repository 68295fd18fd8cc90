import Odbk.Paths

/-!
# `locate_sym_file`

The fields of the module information are longer than the buffers they are copied to.
Proved here:

* `locateSymFile_cvData`, `locateSymFile_beside`, `locateSymFile_overflow`: what the
  function does where the CodeView path exists, and where it does not;
* `locate_sym_file_iff`: exactly when it stays in its buffers and its answer is right.
-/

namespace Odbk

open CString

/-! ## The code -/

/-- The strings of `IMAGEHLP_MODULE64`, in `char LoadedImageName[256]` and
`char CVData[MAX_PATH * 3]`. -/
structure ImagehlpModule64 where
  loadedImageName : CStr
  cvData : CStr
  loadedImageName_lt : loadedImageName.length < 256
  cvData_lt : cvData.length < maxPath * 3

/-- `locate_sym_file`, where `exist` tells what files there are: the result and the buffer,
or `none` for an access outside of a buffer. -/
def locateSymFile (exist : CStr → Bool) (moduleInfo : ImagehlpModule64)
    (symbolTitle imagePath fileName : Buffer maxPath) : Option (Bool × Buffer maxPath) := do
  -- first check the absolute path specified in the CodeView data
  if exist moduleInfo.cvData then
    let fileName ← strncpy fileName moduleInfo.cvData maxPath
    return (true, fileName)
  let symbolTitle ← odbkGetFileTitle moduleInfo.cvData symbolTitle
  -- now check in the same directory as the image
  let imagePath ← odbkGetFilePath moduleInfo.loadedImageName imagePath
  let titleText ← text symbolTitle
  let imagePath ← strcat imagePath titleText
  let pathText ← text imagePath
  if exist pathText then
    let fileName ← strncpy fileName pathText maxPath
    return (true, fileName)
  return (false, fileName)

/-! ## Its purpose -/

/-- CVData's title in the directory of the image. -/
def besideImage (m : ImagehlpModule64) : CStr := directory m.loadedImageName ++ title m.cvData

/-- The function stays in its buffers, finds a file if one of its two paths exists, and
leaves the path that does. -/
def LocatesFile (exist : CStr → Bool) (m : ImagehlpModule64)
    (r : Option (Bool × Buffer maxPath)) : Prop :=
  ∃ found fileName', r = some (found, fileName') ∧
    found = (exist m.cvData || exist (besideImage m)) ∧
    (found = true → ∃ path, text fileName' = some path ∧ exist path = true ∧
      path = if exist m.cvData then m.cvData else besideImage m)

section Locate

variable (exist : CStr → Bool) (m : ImagehlpModule64)
  (symbolTitle imagePath fileName : Buffer maxPath)

/-- A CodeView path that exists is copied, and cut off without a NUL if it is too long. -/
theorem locateSymFile_cvData (h : exist m.cvData = true) :
    ∃ b, locateSymFile exist m symbolTitle imagePath fileName = some (true, b) ∧
      text b = if m.cvData.length < maxPath then some m.cvData else none := by
  obtain ⟨b, hb, ht⟩ := strncpy_eq fileName m.cvData
  refine ⟨b, ?_, ht⟩
  rw [locateSymFile, if_pos h, hb]
  rfl

theorem directory_image_lt : (directory m.loadedImageName).length < maxPath := by
  have hparts := length_parts m.loadedImageName
  have hlt := m.loadedImageName_lt
  have hmax : maxPath = 260 := rfl
  omega

theorem length_besideImage : (besideImage m).length =
    (directory m.loadedImageName).length + (title m.cvData).length := CStr.length_append _ _

/-- Where the CodeView path does not exist, the two parts are copied and joined. -/
theorem locateSymFile_parts (h : exist m.cvData = false) :
    ∃ path : Buffer maxPath, text path = some (directory m.loadedImageName) ∧
      locateSymFile exist m symbolTitle imagePath fileName =
        (strcpy symbolTitle (title m.cvData)).bind fun symbolTitle =>
          (text symbolTitle).bind fun t => (strcat path t).bind fun imagePath =>
            (text imagePath).bind fun p =>
              if exist p then (strncpy fileName p maxPath).bind fun b => some (true, b)
              else some (false, fileName) := by
  obtain ⟨path, hp, hpt⟩ := odbkGetFilePath_eq imagePath (directory_image_lt m)
  refine ⟨path, hpt, ?_⟩
  rw [locateSymFile, if_neg (by simp [h]), odbkGetFileTitle_eq, hp]
  rfl

/-- A joined path that fits is looked for, and copied if it exists. -/
theorem locateSymFile_beside (h : exist m.cvData = false)
    (hfit : (besideImage m).length < maxPath) :
    ∃ b, locateSymFile exist m symbolTitle imagePath fileName =
        some (exist (besideImage m), b) ∧
      (exist (besideImage m) = true → text b = some (besideImage m)) := by
  have hlen := length_besideImage m
  obtain ⟨path, hpt, hcode⟩ := locateSymFile_parts exist m symbolTitle imagePath fileName h
  obtain ⟨b, hb, hbt⟩ := strcpy_eq symbolTitle (s := title m.cvData) (by omega)
  obtain ⟨b', hb', hbt'⟩ := strcat_eq (s := title m.cvData) hpt (by omega)
  have hjoined : text b' = some (besideImage m) := hbt'
  rw [hcode]
  simp only [hb, hbt, hb', hjoined, Option.bind_some]
  obtain ⟨c, hc, hct⟩ := strncpy_eq fileName (besideImage m)
  rw [if_pos hfit] at hct
  cases he : exist (besideImage m) with
  | true => exact ⟨c, by rw [if_pos rfl, hc]; rfl, fun _ => hct⟩
  | false => exact ⟨fileName, by rw [if_neg Bool.false_ne_true], fun hf => nomatch hf⟩

/-- A joined path that does not fit is written beyond the end of a buffer. -/
theorem locateSymFile_overflow (h : exist m.cvData = false)
    (hlong : maxPath ≤ (besideImage m).length) :
    locateSymFile exist m symbolTitle imagePath fileName = none := by
  have hlen := length_besideImage m
  obtain ⟨path, hpt, hcode⟩ := locateSymFile_parts exist m symbolTitle imagePath fileName h
  rw [hcode]
  by_cases htitle : (title m.cvData).length < maxPath
  · obtain ⟨b, hb, hbt⟩ := strcpy_eq symbolTitle htitle
    have hcat := strcat_eq_none (s := title m.cvData) hpt (by omega)
    simp only [hb, hbt, hcat, Option.bind_some, Option.bind_none]
  · rw [strcpy_eq_none symbolTitle (by omega)]
    rfl

/-- **Locating symbols.** The function stays in its buffers and answers as it should
exactly when the path that decides its answer fits in a buffer. -/
theorem locate_sym_file_iff :
    LocatesFile exist m (locateSymFile exist m symbolTitle imagePath fileName) ↔
      if exist m.cvData then m.cvData.length < maxPath
      else (directory m.loadedImageName).length + (title m.cvData).length < maxPath := by
  cases h : exist m.cvData with
  | true =>
    obtain ⟨b, hb, ht⟩ := locateSymFile_cvData exist m symbolTitle imagePath fileName h
    rw [if_pos rfl, hb]
    constructor
    · rintro ⟨found, fileName', hr, hfound, hpath⟩
      cases hr
      obtain ⟨path, htext, _⟩ := hpath rfl
      rw [ht] at htext
      by_contra hlong
      rw [if_neg hlong] at htext
      cases htext
    · intro hfit
      rw [if_pos hfit] at ht
      refine ⟨true, b, rfl, by rw [h, Bool.true_or], fun _ => ⟨m.cvData, ht, h, ?_⟩⟩
      rw [if_pos h]
  | false =>
    rw [if_neg Bool.false_ne_true, ← length_besideImage]
    by_cases hfit : (besideImage m).length < maxPath
    · obtain ⟨b, hb, ht⟩ := locateSymFile_beside exist m symbolTitle imagePath fileName h hfit
      refine iff_of_true ⟨_, b, hb, by rw [h, Bool.false_or], fun he => ?_⟩ hfit
      refine ⟨besideImage m, ht he, he, ?_⟩
      rw [if_neg (by simp [h])]
    · have hcode := locateSymFile_overflow exist m symbolTitle imagePath fileName h (by omega)
      refine iff_of_false ?_ hfit
      rintro ⟨_, _, hr, _⟩
      rw [hcode] at hr
      cases hr

end Locate

/-- A CodeView path of 260 characters. -/
def longModule : ImagehlpModule64 where
  loadedImageName := ⟨[], by decide⟩
  cvData := ⟨List.replicate maxPath 97, fun h => absurd (List.eq_of_mem_replicate h) (by decide)⟩
  loadedImageName_lt := by decide
  cvData_lt := by
    rw [CStr.length, List.length_replicate]
    decide

/-- A CodeView path of 260 characters is copied without a NUL if it exists, and beyond the
end of `symbolTitle` if it does not. -/
theorem long_cvData :
    (∃ b, locateSymFile (fun _ => true) longModule (.filled 1) (.filled 1) (.filled 1) =
        some (true, b) ∧ text b = none ∧
      ¬ LocatesFile (fun _ => true) longModule (some (true, b))) ∧
    locateSymFile (fun _ => false) longModule (.filled 1) (.filled 1) (.filled 1) = none ∧
    ¬ LocatesFile (fun _ => false) longModule none := by
  have hlen : longModule.cvData.length = maxPath := List.length_replicate
  refine ⟨?_, ?_, ?_⟩
  · obtain ⟨b, hb, ht⟩ := locateSymFile_cvData (fun _ => true) longModule (.filled 1) (.filled 1)
      (.filled 1) rfl
    rw [hlen, if_neg (lt_irrefl _)] at ht
    refine ⟨b, hb, ht, ?_⟩
    rintro ⟨_, _, hr, _, hpath⟩
    cases hr
    obtain ⟨path, htext, _⟩ := hpath rfl
    rw [ht] at htext
    cases htext
  · refine locateSymFile_overflow _ longModule _ _ _ rfl ?_
    have htitle : title longModule.cvData = longModule.cvData := by
      refine title_eq_self fun c hc => ?_
      have hc : c = 97 := List.eq_of_mem_replicate hc
      rw [hc]
      decide
    rw [length_besideImage, htitle, hlen]
    exact Nat.le_add_left _ _
  · rintro ⟨_, _, hr, _⟩
    cases hr

end Odbk
