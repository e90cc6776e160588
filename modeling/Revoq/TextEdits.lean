import Revoq.ListCuts
import Revoq.StringUtils

/-! # Replacing text

`replaceAll` and `replaceChar` of `StringUtils`.  `replaceAll` copies what is between the
occurrences into a new string; the pieces it copies are those of `ListCuts`, so for a
single character they are the fields of `split`, and the result is what `join` makes of
them.
-/
namespace Revoq
namespace StringUtils
open ListCuts

/-- How far on `sought` stands for the first time. -/
def findFrom (sought : List Char) : List Char → Option Nat
  | [] => if sought = [] then some 0 else none
  | c :: cs => if sought.isPrefixOf (c :: cs) then some 0 else (findFrom sought cs).map (· + 1)

/-- `std::string::find` of a text, from position `pos` on. -/
def findText (src sought : List Char) (pos : Nat) : Option Nat :=
  if pos ≤ src.length then (findFrom sought (src.drop pos)).map (pos + ·) else none

/-! ## The first occurrence -/

section
variable {sought src s : List Char} {pos e : Nat}

theorem findFrom_some (h : findFrom sought s = some e) :
    (∃ rest, s = s.take e ++ sought ++ rest) ∧ e ≤ s.length ∧
      ∀ q t, s = q ++ sought ++ t → e ≤ q.length := by
  induction s generalizing e with
  | nil =>
    rw [findFrom] at h
    split at h <;> cases h
    rename_i hnil
    exact ⟨⟨[], by simp [hnil]⟩, Nat.le_refl 0, fun _ _ _ => Nat.zero_le _⟩
  | cons c cs ih =>
    rw [findFrom] at h
    split at h
    · rename_i hpre
      cases h
      obtain ⟨rest, hrest⟩ := List.isPrefixOf_iff_prefix.mp hpre
      exact ⟨⟨rest, by simp [hrest]⟩, Nat.zero_le _, fun _ _ _ => Nat.zero_le _⟩
    · rename_i hpre
      obtain ⟨e, he, rfl⟩ := Option.map_eq_some_iff.mp h
      obtain ⟨⟨rest, hrest⟩, hle, hfirst⟩ := ih he
      refine ⟨⟨rest, ?_⟩, Nat.succ_le_succ hle, fun q t hs => ?_⟩
      · rw [List.take_succ_cons, List.cons_append, List.cons_append, ← hrest]
      · cases q with
        | nil => exact absurd (List.isPrefixOf_iff_prefix.mpr ⟨t, by simp [hs]⟩) hpre
        | cons x q =>
          obtain ⟨-, hcs⟩ := List.cons.inj (hs.trans (by rw [List.cons_append, List.cons_append]))
          exact Nat.succ_le_succ (hfirst q t hcs)

theorem findFrom_none (h : findFrom sought s = none) : ∀ q t, s ≠ q ++ sought ++ t := by
  induction s with
  | nil =>
    intro q t hs
    rw [findFrom] at h
    split at h
    · cases h
    · rename_i hne
      simp_all
  | cons c cs ih =>
    intro q t hs
    rw [findFrom] at h
    split at h
    · cases h
    · rename_i hpre
      cases q with
      | nil => exact hpre (List.isPrefixOf_iff_prefix.mpr ⟨t, by simp [hs]⟩)
      | cons x q =>
        obtain ⟨-, hcs⟩ := List.cons.inj (hs.trans (by rw [List.cons_append, List.cons_append]))
        exact ih (Option.map_eq_none_iff.mp h) q t hcs

/-- The piece in front of an occurrence, and what is behind it. -/
theorem findText_some (h : findText src sought pos = some e) :
    pos ≤ e ∧ e + sought.length ≤ src.length ∧
      src.drop pos = (src.drop pos).take (e - pos) ++ sought ++ src.drop (e + sought.length) ∧
      ∀ q t, src.drop pos = q ++ sought ++ t → e - pos ≤ q.length := by
  rw [findText] at h
  split at h
  · rename_i hpos
    obtain ⟨k, hk, rfl⟩ := Option.map_eq_some_iff.mp h
    obtain ⟨⟨rest, hrest⟩, hle, hfirst⟩ := findFrom_some hk
    have hlen := congrArg List.length hrest
    rw [List.length_append, List.length_append, List.length_take, Nat.min_eq_left hle,
      List.length_drop] at hlen
    have hbehind : rest = src.drop (pos + k + sought.length) := by
      have hdrop := congrArg (List.drop (k + sought.length)) hrest
      rw [List.drop_drop, List.drop_left'
        (by rw [List.length_append, List.length_take, Nat.min_eq_left hle])] at hdrop
      rw [← hdrop, Nat.add_assoc]
    rw [Nat.add_sub_cancel_left, ← hbehind]
    exact ⟨Nat.le_add_right _ _, by omega, hrest, hfirst⟩
  · cases h

theorem findText_none (hpos : pos ≤ src.length) (h : findText src sought pos = none) :
    ∀ q t, src.drop pos ≠ q ++ sought ++ t := by
  rw [findText, if_pos hpos] at h
  exact findFrom_none (Option.map_eq_none_iff.mp h)

end

/-! ## Replacing -/

/-- The loop of `replaceAll` from `last_pos` on, and the last `append`. -/
def replaceFrom (source sought replacement : List Char) (hne : sought ≠ []) (lastPos : Nat)
    (newStr : List Char) : List Char :=
  match _h : findText source sought lastPos with
  | some findPos =>
      replaceFrom source sought replacement hne (findPos + sought.length)
        (newStr ++ (source.drop lastPos).take (findPos - lastPos) ++ replacement)
  | none => newStr ++ source.drop lastPos
termination_by source.length - lastPos
decreasing_by
  have := findText_some _h
  have := List.length_pos_of_ne_nil hne
  omega

/-- `StringUtils::replaceAll`: what it leaves in `source`.  `sought` and `replacement` are
its `from` and `to`. -/
def replaceAll (source sought replacement : List Char) : List Char :=
  if h : sought = [] then source else replaceFrom source sought replacement h 0 []

/-- `StringUtils::replaceChar`; `old` and `new` are its `from` and `to`. -/
def replaceChar (source : List Char) (old new : Char) : List Char :=
  source.map fun c => if c = old then new else c

/-- The loop copies the pieces of the rest, with the replacement between them. -/
theorem replaceFrom_cuts (source sought replacement : List Char) (hne : sought ≠ []) (lastPos : Nat)
    (newStr : List Char) (hpos : lastPos ≤ source.length) :
    ∃ ps, Cuts sought (source.drop lastPos) ps ∧
      replaceFrom source sought replacement hne lastPos newStr = newStr ++
        replacement.intercalate ps := by
  induction lastPos, newStr using replaceFrom.induct source sought replacement hne with
  | case1 lastPos newStr findPos hfind ih =>
    obtain ⟨hle, hin, hcut, hfirst⟩ := findText_some hfind
    obtain ⟨ps, hcuts, hrest⟩ := ih hin
    obtain ⟨q, qs, rfl⟩ := List.exists_cons_of_ne_nil hcuts.ne_nil
    refine ⟨(source.drop lastPos).take (findPos - lastPos) :: q :: qs, ?_, ?_⟩
    · have hlen : ((source.drop lastPos).take (findPos - lastPos)).length = findPos - lastPos := by
        rw [List.length_take, List.length_drop]
        omega
      rw [hcut] at hfirst
      have := Cuts.cut (p := (source.drop lastPos).take (findPos - lastPos)) (fun s t he => by
        rw [hlen]
        exact hfirst s t he) hcuts
      rwa [← hcut] at this
    · rw [replaceFrom]
      split
      · rename_i findPos' hfind'
        cases hfind.symm.trans hfind'
        rw [hrest, List.intercalate_cons_cons]
        simp only [List.append_assoc]
      · rename_i hfind'
        cases hfind.symm.trans hfind'
  | case2 lastPos newStr hfind =>
    refine ⟨[source.drop lastPos], .last (findText_none hpos hfind), ?_⟩
    rw [replaceFrom]
    split
    · rename_i findPos' hfind'
      cases hfind.symm.trans hfind'
    · rw [List.intercalate_singleton]

/-- **The pieces are the same whatever replaces the text between them.** -/
theorem replaceAll_cuts (source sought : List Char) (hne : sought ≠ []) :
    ∃ ps, Cuts sought source ps ∧ ∀ replacement, replaceAll source sought replacement =
      join ps replacement := by
  obtain ⟨ps, hcuts, -⟩ := replaceFrom_cuts source sought [] hne 0 [] (Nat.zero_le _)
  rw [List.drop_zero] at hcuts
  refine ⟨ps, hcuts, fun replacement => ?_⟩
  obtain ⟨ps', hcuts', hto⟩ := replaceFrom_cuts source sought replacement hne 0 [] (Nat.zero_le _)
  rw [List.drop_zero] at hcuts'
  rw [replaceAll, dif_neg hne, hto, hcuts.unique hcuts', List.nil_append, join_eq_intercalate]

/-- The fields of `split` are the pieces at the delimiter. -/
theorem cuts_splitOn (source : List Char) (delimiter : Char) :
    Cuts [delimiter] source (source.splitOn delimiter) := by
  have h := cuts_of_notMem (List.splitOn_ne_nil delimiter source) fun field => notMem_of_mem_splitOn
  rwa [List.intercalate_splitOn] at h

/-- Replacing a character is joining its fields with the other one. -/
theorem replaceChar_eq_intercalate (source : List Char) (old new : Char) :
    replaceChar source old new = [new].intercalate (source.splitOn old) := by
  induction source with
  | nil => simp [replaceChar]
  | cons c cs ih =>
    rw [List.splitOn_cons_eq_if_modifyHead]
    obtain ⟨first, rest, hsplit⟩ := List.exists_cons_of_ne_nil (List.splitOn_ne_nil old cs)
    rw [hsplit] at ih ⊢
    by_cases hc : c = old
    · rw [if_pos (by simpa using hc), List.intercalate_cons_cons, ← ih]
      simp [replaceChar, hc]
    · rw [if_neg (by simpa using hc), List.modifyHead_cons]
      have hhead : [new].intercalate ((c :: first) :: rest) = c :: [new].intercalate
          (first :: rest) := by
        cases rest <;> simp [List.intercalate_cons_cons]
      rw [hhead, ← ih]
      simp [replaceChar, hc]

/-- **Replacing, splitting and joining agree.**  For every string and every text that is
not empty there is one way to cut the string at the first, and then at each next, occurrence
of the text; `replaceAll` joins the pieces with the replacement, whatever it is.  At a
single character the pieces are the fields of `split`, and `replaceChar` does the same.  A
character that does not occur can stand for the text and be replaced back. -/
theorem replace_family (source sought : List Char) (hne : sought ≠ []) :
    ∃ ps, Cuts sought source ps ∧ (∀ ps', Cuts sought source ps' → ps' = ps) ∧
      join ps sought = source ∧
      (∀ replacement, replaceAll source sought replacement = join ps replacement) ∧
      (∀ c, sought = [c] → split source c = some ps ∧ ∀ new,
        replaceAll source sought [new] = replaceChar source c new) ∧
      ∀ c, c ∉ source → replaceAll (replaceAll source sought [c]) [c] sought = source := by
  obtain ⟨ps, hcuts, hto⟩ := replaceAll_cuts source sought hne
  have hjoin : join ps sought = source := by rw [join_eq_intercalate, hcuts.intercalate]
  refine ⟨ps, hcuts, fun ps' h => h.unique hcuts, hjoin, hto, fun c hc => ?_, fun c hc => ?_⟩
  · subst hc
    have hps := hcuts.unique (cuts_splitOn source c)
    refine ⟨by rw [split_eq_splitOn, hps], fun new => ?_⟩
    rw [hto, join_eq_intercalate, hps, replaceChar_eq_intercalate]
  · obtain ⟨qs, hcuts', hto'⟩ := replaceAll_cuts (replaceAll source sought [c]) [c]
      (List.cons_ne_nil c [])
    have hback := cuts_of_notMem hcuts.ne_nil fun p hp hm => hc (hcuts.mem hp hm)
    rw [← join_eq_intercalate, ← hto] at hback
    rw [hto', hcuts'.unique hback]
    exact hjoin

/-- Overlapping occurrences are replaced from the left. -/
theorem replace_family_overlap :
    ∃ ps, Cuts "aa".toList "aaa".toList ps ∧ join ps "aa".toList = "aaa".toList := by
  obtain ⟨ps, hcuts, -, hjoin, -⟩ := replace_family "aaa".toList "aa".toList (by decide)
  exact ⟨ps, hcuts, hjoin⟩

end StringUtils
end Revoq
