import Mathlib.Data.List.Forall2
import TextLines.Proofs.Files.Paths
import TextLines.Report.Slug

/-!
# The endings of file names

The extension of a path is what follows the last dot of its last component, if something stands in
front of that dot (`Path.extension_eq_iff`). Whatever is in front of the last slash, dots included,
has no part in it (`Path.extension_fileName`).

Compressed files are told by their extension, in small letters or in capitals
(`looksCompressed_iff`).
-/

namespace TextLines

open Bytes
open Files

/-! ## Small letters and capitals -/

/-- The bytes are the same, or one is the capital of the other. -/
def Bytes.SameButCase (b c : UInt8) : Prop :=
  b = c ∨ isLetter b = true ∧ isLetter c = true ∧
    (b.toNat + 32 = c.toNat ∨ c.toNat + 32 = b.toNat)

theorem lowerByte_eq_iff {b c : UInt8} (hc : 97 ≤ c ∧ c ≤ 122) :
    lowerByte b = c ↔ SameButCase b c := by
  rw [UInt8.le_iff_toNat_le, UInt8.le_iff_toNat_le] at hc
  simp only [lowerByte, SameButCase, isLetter, Bool.or_eq_true, Bool.and_eq_true,
    decide_eq_true_eq, UInt8.le_iff_toNat_le, ← UInt8.toNat_inj] at hc ⊢
  have hb := b.toNat_lt
  split
  · rw [UInt8.toNat_add]
    simp only [UInt8.reduceToNat] at *
    omega
  · simp only [UInt8.reduceToNat] at *
    omega

/-- A text comes to a word of small letters if it is the word but for capitals. -/
theorem map_lowerByte_eq_iff {text word : Bytes} (hword : ∀ c ∈ word, 97 ≤ c ∧ c ≤ 122) :
    text.map lowerByte = word ↔ text.Forall₂ SameButCase word := by
  induction word generalizing text with
  | nil => rw [List.map_eq_nil_iff, List.forall₂_nil_right_iff]
  | cons c word ih =>
    obtain ⟨hc, hrest⟩ := List.forall_mem_cons.mp hword
    rw [List.map_eq_cons_iff, List.forall₂_cons_right_iff]
    constructor
    · rintro ⟨b, text, rfl, hb, htext⟩
      exact ⟨b, text, (lowerByte_eq_iff hc).mp hb, (ih hrest).mp htext, rfl⟩
    · rintro ⟨b, text, hb, htext, rfl⟩
      exact ⟨b, text, rfl, (lowerByte_eq_iff hc).mpr hb, (ih hrest).mpr htext⟩

/-! ## Extensions -/

namespace Files.Path

/-- A path is its last component and what is in front of it. -/
theorem beforeFileName_append_fileName (path : Bytes) :
    beforeFileName path ++ fileName path = path := by
  rw [beforeFileName, fileName, ← List.reverse_append, List.takeWhile_append_dropWhile,
    List.reverse_reverse]

/-- What has no slash belongs to the last component when it is put behind a path. -/
theorem fileName_append (path : Bytes) {rest : Bytes} (h : slash ∉ rest) :
    fileName (path ++ rest) = fileName path ++ rest := by
  have hrest : ∀ b ∈ rest.reverse, (b != slash) = true := fun b hb =>
    bne_iff_ne.mpr fun heq => h (heq ▸ List.mem_reverse.mp hb)
  rw [fileName, fileName, List.reverse_append, List.takeWhile_append_of_pos hrest,
    List.reverse_append, List.reverse_reverse]

/-- A path has a last component unless it is empty or ends with a slash. -/
theorem fileName_ne_nil_iff (path : Bytes) :
    fileName path ≠ [] ↔ path ≠ [] ∧ path.getLast? ≠ some slash := by
  rcases path.eq_nil_or_concat with rfl | ⟨front, b, rfl⟩
  · exact iff_of_false (fun h => h rfl) fun h => h.1 rfl
  · rw [List.concat_eq_append, List.getLast?_concat]
    by_cases hb : b = slash
    · rw [hb]
      exact iff_of_false (fun h => h (cut_append_slash front List.not_mem_nil).1) fun h => h.2 rfl
    · rw [fileName_append front (by simpa using Ne.symm hb)]
      exact iff_of_true (by simp) ⟨by simp, fun h => hb (Option.some.inj h)⟩

/-- What is in front of the last component has no part in the extension. -/
theorem extension_fileName (path : Bytes) : extension (fileName path) = extension path := by
  rw [extension, extension, fileName_of_notMem (slash_notMem_fileName path)]

theorem extension_of_notMem {path : Bytes} (h : dot ∉ fileName path) : extension path = [] := by
  have hall : (fileName path).reverse.takeWhile (· != dot) = (fileName path).reverse := by
    rw [List.takeWhile_eq_self_iff]
    exact fun b hb => bne_iff_ne.mpr fun heq => h (heq ▸ List.mem_reverse.mp hb)
  rw [extension, hall, List.length_reverse, if_neg (Nat.not_lt.mpr (Nat.le_succ _)), ite_self]

/-- The extension begins with the last dot of the name, unless that is at the front. -/
theorem extension_of_fileName {path front ending : Bytes} (hdot : dot ∉ ending)
    (h : fileName path = front ++ dot :: ending) :
    extension path =
      if front = [] ∨ front = [dot] ∧ ending = [] then [] else dot :: ending := by
  have htail : (fileName path).reverse.takeWhile (· != dot) = ending.reverse := by
    have hall : ∀ b ∈ ending.reverse, (b != dot) = true := fun b hb =>
      bne_iff_ne.mpr fun heq => hdot (heq ▸ List.mem_reverse.mp hb)
    rw [h, List.reverse_append, List.reverse_cons, List.append_assoc,
      List.takeWhile_append_of_pos hall, List.singleton_append, List.takeWhile_cons,
      if_neg (by decide), List.append_nil]
  have hlength : ending.length + 1 < (fileName path).length ↔ front ≠ [] := by
    rw [h, List.length_append, List.length_cons, Ne, ← List.length_eq_zero_iff]
    omega
  have hdots : (fileName path == [dot, dot]) = true ↔ front = [dot] ∧ ending = [] := by
    rw [beq_iff_eq, h]
    rcases front with _ | ⟨b, _ | ⟨b', front⟩⟩
    · simpa using fun heq : ending = [dot] => hdot (heq ▸ List.mem_singleton_self dot)
    · simp
    · simp
  rw [extension, htail, List.length_reverse, List.reverse_reverse]
  by_cases hparent : front = [dot] ∧ ending = []
  · rw [if_pos (hdots.mpr hparent), if_pos (.inr hparent)]
  rw [if_neg (mt hdots.mp hparent)]
  by_cases hfront : front = []
  · rw [if_neg (mt hlength.mp (not_not.mpr hfront)), if_pos (.inl hfront)]
  · rw [if_pos (hlength.mpr hfront), if_neg (not_or.mpr ⟨hfront, hparent⟩)]

/-- The extension of a path is what follows a dot if no dot or slash comes behind, and in front of
the dot is something, which does not end with a slash. -/
theorem extension_eq_iff {path ending : Bytes} (hne : ending ≠ []) (hdot : dot ∉ ending)
    (hslash : slash ∉ ending) :
    extension path = dot :: ending ↔
      ∃ stem, path = stem ++ dot :: ending ∧ stem ≠ [] ∧ stem.getLast? ≠ some slash := by
  constructor
  · intro h
    by_cases hmem : dot ∈ fileName path
    · obtain ⟨last, front, hsplit, hlast⟩ :=
        List.eq_append_cons_of_mem (List.mem_reverse.mpr hmem)
      have hname : fileName path = front.reverse ++ dot :: last.reverse := by
        rw [← List.reverse_reverse (fileName path), hsplit]
        simp
      rw [extension_of_fileName (by simpa using hlast) hname] at h
      split at h
      · cases h
      · rename_i hfront
        obtain rfl := (List.cons.inj h).2
        have hslashes : slash ∉ front.reverse := fun hmem =>
          slash_notMem_fileName path (hname ▸ List.mem_append_left _ hmem)
        refine ⟨beforeFileName path ++ front.reverse, ?_, (fileName_ne_nil_iff _).mp ?_⟩
        · rw [List.append_assoc, ← hname, beforeFileName_append_fileName]
        · rw [fileName_append _ hslashes]
          exact List.append_ne_nil_of_right_ne_nil _ fun hnil => hfront (.inl hnil)
    · rw [extension_of_notMem hmem] at h
      cases h
  · rintro ⟨stem, rfl, hstem⟩
    have hrest : slash ∉ dot :: ending := List.not_mem_cons_of_ne_of_not_mem (by decide) hslash
    rw [extension_of_fileName hdot (fileName_append stem hrest), if_neg]
    rintro (hnil | ⟨-, hnil⟩)
    · exact (fileName_ne_nil_iff stem).mpr hstem hnil
    · exact hne hnil

end Files.Path

/-! ## Compressed files -/

/-- The extension is a dot and a word of small letters, but for capitals, if the path ends so. -/
theorem map_lowerByte_extension_eq_iff (path word : Bytes) (hne : word ≠ [])
    (hword : ∀ c ∈ word, 97 ≤ c ∧ c ≤ 122) :
    (Path.extension path).map lowerByte = dot :: word ↔
      ∃ stem ending, path = stem ++ dot :: ending ∧ ending.Forall₂ SameButCase word ∧
        stem ≠ [] ∧ stem.getLast? ≠ some slash := by
  have hdot : ∀ b, lowerByte b = dot ↔ b = dot := by
    intro b
    rw [lowerByte]
    split
    · rename_i hb
      refine iff_of_false (fun h => ?_) fun h => absurd (h ▸ hb) (by decide)
      rw [(UInt8.eq_sub_iff_add_eq).mpr h] at hb
      exact absurd hb (by decide)
    · rfl
  -- No letter is a dot or a slash.
  have hending : ∀ ending : Bytes, ending.map lowerByte = word →
      ending ≠ [] ∧ dot ∉ ending ∧ slash ∉ ending := by
    rintro ending rfl
    have hmem : ∀ b, lowerByte b = b → ¬ 97 ≤ b → b ∉ ending := fun b hsame hlow hb =>
      hlow (hsame ▸ (hword _ (List.mem_map_of_mem hb)).1)
    exact ⟨fun hnil => hne (by rw [hnil, List.map_nil]), hmem dot (by decide) (by decide),
      hmem slash (by decide) (by decide)⟩
  rw [List.map_eq_cons_iff]
  constructor
  · rintro ⟨b, ending, hextension, hb, hsame⟩
    obtain rfl := (hdot b).mp hb
    obtain ⟨hnil, hdots, hslashes⟩ := hending ending hsame
    obtain ⟨stem, hpath, hstem⟩ := (Path.extension_eq_iff hnil hdots hslashes).mp hextension
    exact ⟨stem, ending, hpath, (map_lowerByte_eq_iff hword).mp hsame, hstem⟩
  · rintro ⟨stem, ending, hpath, hsame, hstem⟩
    have hmap := (map_lowerByte_eq_iff hword).mpr hsame
    obtain ⟨hnil, hdots, hslashes⟩ := hending ending hmap
    exact ⟨dot, ending, (Path.extension_eq_iff hnil hdots hslashes).mpr ⟨stem, hpath, hstem⟩, rfl,
      hmap⟩

/-- A file is taken for compressed exactly if its path ends with a dot and one of the two endings,
in small letters or in capitals, and a part of the file name is in front of that dot. The last
component alone decides. -/
theorem looksCompressed_iff (path : Bytes) :
    (looksCompressed path = true ↔
      ∃ stem ending, path = stem ++ dot :: ending ∧
        (ending.Forall₂ SameButCase (ascii "gz") ∨ ending.Forall₂ SameButCase (ascii "gzip")) ∧
        stem ≠ [] ∧ stem.getLast? ≠ some slash) ∧
    looksCompressed path = looksCompressed (Path.fileName path) := by
  refine ⟨?_, by rw [looksCompressed, looksCompressed, Path.extension_fileName]⟩
  have hsmall : ∀ word : Bytes, word.all (fun c => decide (97 ≤ c ∧ c ≤ 122)) = true →
      ∀ c ∈ word, 97 ≤ c ∧ c ≤ 122 := fun _ hall c hc =>
    of_decide_eq_true (List.all_eq_true.mp hall c hc)
  have hgz := map_lowerByte_extension_eq_iff path (ascii "gz") (by decide) (hsmall _ (by decide))
  have hgzip := map_lowerByte_extension_eq_iff path (ascii "gzip") (by decide)
    (hsmall _ (by decide))
  have hextensions : compressedExtensions = [dot :: ascii "gz", dot :: ascii "gzip"] := rfl
  rw [looksCompressed, List.contains_iff_mem, hextensions, List.mem_cons, List.mem_singleton,
    hgz, hgzip]
  simp only [← exists_or, ← and_or_left, ← or_and_right]

/-- Names with dots at their front, with several dots, and with a slash behind them. -/
example : [".gz", "dir/.gz", "..gz", "a.gz/", "a.gz.b", "a.gz/b", "a.b.GZip"].map
    (fun path => looksCompressed (ascii path)) =
      [false, false, true, false, false, false, true] := by
  decide

end TextLines
