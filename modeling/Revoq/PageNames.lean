import Mathlib.Data.List.Sort
import Mathlib.Data.List.TakeWhile
import Revoq.PageFile

/-! # The names of page files

`Page::getPagePath` names a page file `{:08x}.{}.journal` after its destination and
its id, and `Locator::listPageId` reads the ids back from the names in a directory.
The rest of the development has `Disk.listPageId` in its place; `listPageId_disk`
says that this is the same list.

A name is a list of characters.  A call of `listPageId` has no result if `stoi` throws
or if a name has no second part.
-/
namespace Revoq

/-! ## Formatting -/

/-- The last `k` hexadecimal digits of a number, in lower case. -/
def hexDigits : Nat → Nat → List Char
  | 0, _ => []
  | k + 1, n => hexDigits k (n / 16) ++ [Nat.digitChar (n % 16)]

/-- `fmt::format("{:08x}", dest_id)`. -/
def hexDestId (destId : UInt32) : List Char := hexDigits 8 destId.toNat

/-- The file name of `Page::getPagePath`: `fmt::format("{:08x}.{}.journal", dest_id, id)`. -/
def pageFileName (destId : UInt32) (id : Nat) : List Char :=
  hexDestId destId ++ '.' :: Nat.toDigits 10 id ++ ".journal".toList

/-! ## Parsing -/

/-- The parts of a string from a position on, when `part` has been read since the last
delimiter. -/
def splitFrom (delimiter : Char) : List Char → List Char → List (List Char)
  | part, [] => [part]
  | part, c :: cs =>
      if c = delimiter then part :: splitFrom delimiter [] cs
      else splitFrom delimiter (part ++ [c]) cs

/-- `StringUtils::split`. -/
def split (src : List Char) (delimiter : Char) : List (List Char) := splitFrom delimiter [] src

/-- The sign of a number, and what follows it. -/
def takeSign : List Char → Int × List Char
  | '-' :: cs => (-1, cs)
  | '+' :: cs => (1, cs)
  | cs => (1, cs)

/-- `isspace` in the C locale. -/
def isspace (c : Char) : Bool := c = ' ' || decide (9 ≤ c.toNat ∧ c.toNat ≤ 13)

/-- `std::stoi`: white space, a sign and the longest run of decimal digits; it throws
if there is no digit or the value is no `int`. -/
def stoi (s : List Char) : Option Int :=
  let (sign, cs) := takeSign (s.dropWhile isspace)
  let digits := cs.takeWhile Char.isDigit
  let value := sign * (Nat.ofDigitChars 10 digits 0 : Int)
  if digits = [] then none
  else if -2 ^ 31 ≤ value ∧ value < 2 ^ 31 then some value else none

/-- `INT_MAX`. -/
def intMax : Nat := 2 ^ 31 - 1

/-- The page id in a file name, if it is one of the destination; there is no result if
the second part is missing or no number. -/
def pageIdOf (destId : UInt32) (name : List Char) : Option (Option Int) :=
  let parts := split name '.'
  if parts.head? = some (hexDestId destId) then (parts[1]?.bind stoi).map some else some none

/-- The loop of `listPageId` over the directory entries. -/
def collectPageIds (destId : UInt32) : List (List Char) → Option (List Int)
  | [] => some []
  | name :: names =>
      (pageIdOf destId name).bind fun id => (collectPageIds destId names).map fun ids =>
        id.toList ++ ids

/-- `Locator::listPageId` over the entries of the journal directory. -/
def Locator.listPageId (destId : UInt32) (entries : List (List Char)) : Option (List Int) :=
  (collectPageIds destId entries).map fun ids => ids.insertionSort (· ≤ ·)

/-! ## Splitting a name -/

theorem splitFrom_part {delimiter : Char} (part cs rest : List Char) (h : delimiter ∉ cs) :
    splitFrom delimiter part (cs ++ delimiter :: rest) =
      (part ++ cs) :: splitFrom delimiter [] rest := by
  induction cs generalizing part with
  | nil => simp [splitFrom]
  | cons c cs ih =>
    have hc : c ≠ delimiter := fun e => h (by simp [e])
    rw [List.cons_append, splitFrom, if_neg hc, ih _ fun hm => h (List.mem_cons_of_mem _ hm),
      List.append_assoc]
    rfl

theorem mem_hexDigits {k n : Nat} {c : Char} (h : c ∈ hexDigits k n) :
    ∃ x, x < 16 ∧ c = Nat.digitChar x := by
  induction k generalizing n with
  | zero => cases h
  | succ k ih =>
    rcases List.mem_append.mp h with h | h
    · exact ih h
    · exact ⟨n % 16, Nat.mod_lt n (by decide), List.mem_singleton.mp h⟩

theorem dot_notMem_hexDigits (k n : Nat) : '.' ∉ hexDigits k n := by
  intro h
  obtain ⟨x, hx, hc⟩ := mem_hexDigits h
  have : ∀ y < 16, '.' ≠ Nat.digitChar y := by decide
  exact this x hx hc

theorem dot_notMem_toDigits (n : Nat) : '.' ∉ Nat.toDigits 10 n := by
  intro h
  have := Nat.isDigit_of_mem_toDigits (by decide) (by decide) h
  exact absurd this (by decide)

/-- **A name splits into its three parts.** -/
theorem split_pageFileName (destId : UInt32) (id : Nat) :
    split (pageFileName destId id) '.' =
      [hexDestId destId, Nat.toDigits 10 id, "journal".toList] := by
  have hrest : pageFileName destId id =
      hexDestId destId ++ '.' :: (Nat.toDigits 10 id ++ '.' :: "journal".toList) := by
    simp [pageFileName]
  rw [split, hrest, hexDestId, splitFrom_part _ _ _ (dot_notMem_hexDigits 8 destId.toNat),
    splitFrom_part _ _ _ (dot_notMem_toDigits id)]
  rfl

/-! ## Reading the parts back -/

theorem hexDigits_injective {k n m : Nat} (hn : n < 16 ^ k) (hm : m < 16 ^ k)
    (h : hexDigits k n = hexDigits k m) : n = m := by
  induction k generalizing n m with
  | zero => omega
  | succ k ih =>
    obtain ⟨hdiv, hdigit⟩ := List.append_inj' h rfl
    have hinj : ∀ x < 16, ∀ y < 16, Nat.digitChar x = Nat.digitChar y → x = y := by decide
    have hmod := hinj _ (Nat.mod_lt n (by decide)) _ (Nat.mod_lt m (by decide))
      (List.cons.inj hdigit).1
    have hquot := ih (n := n / 16) (m := m / 16) (by rw [pow_succ] at hn; omega)
      (by rw [pow_succ] at hm; omega) hdiv
    omega

theorem hexDestId_injective {a b : UInt32} (h : hexDestId a = hexDestId b) : a = b :=
  UInt32.toNat_inj.mp (hexDigits_injective a.toNat_lt b.toNat_lt h)

theorem takeSign_of_digit {c : Char} {cs : List Char} (h : c.isDigit) :
    takeSign (c :: cs) = (1, c :: cs) := by
  unfold takeSign
  split
  · rename_i heq
    cases heq
    exact absurd h (by decide)
  · rename_i heq
    cases heq
    exact absurd h (by decide)
  · rfl

theorem isspace_of_digit {c : Char} (h : c.isDigit) : isspace c = false := by
  have h48 : 48 ≤ c.toNat := by
    simp only [Char.isDigit, Bool.and_eq_true, decide_eq_true_eq] at h
    exact UInt32.le_iff_toNat_le.mp h.1
  simp only [isspace, Bool.or_eq_false_iff, decide_eq_false_iff_not]
  refine ⟨?_, by omega⟩
  rintro rfl
  exact absurd h48 (by decide)

/-- `stoi` of a string of digits is its value. -/
theorem stoi_digits {digits : List Char} (hne : digits ≠ []) (hdigit : ∀ c ∈ digits, c.isDigit)
    (hmax : Nat.ofDigitChars 10 digits 0 ≤ intMax) :
    stoi digits = some (Nat.ofDigitChars 10 digits 0 : Int) := by
  have hsign : takeSign (digits.dropWhile isspace) = (1, digits) := by
    obtain ⟨c, cs, rfl⟩ := List.exists_cons_of_ne_nil hne
    have hc : c.isDigit := hdigit c List.mem_cons_self
    rw [List.dropWhile_cons_of_neg (by simp [isspace_of_digit hc])]
    exact takeSign_of_digit hc
  have hfits : Nat.ofDigitChars 10 digits 0 ≤ 2 ^ 31 - 1 := hmax
  unfold stoi
  rw [hsign]
  simp only [List.takeWhile_eq_self_iff.mpr hdigit, if_neg hne, one_mul]
  rw [if_pos (by omega)]

/-- `stoi` reads a decimal number back. -/
theorem stoi_toDigits {n : Nat} (hn : n ≤ intMax) : stoi (Nat.toDigits 10 n) = some (n : Int) := by
  have h := @stoi_digits (Nat.toDigits 10 n) Nat.toDigits_ne_nil
    (fun c hc => Nat.isDigit_of_mem_toDigits (by decide) (by decide) hc)
    (by rw [Nat.ofDigitChars_ten_toDigits]; exact hn)
  rw [Nat.ofDigitChars_ten_toDigits] at h
  exact h

/-! ## Listing a directory -/

/-- The page id of a file that `getPagePath` has named. -/
theorem pageIdOf_pageFileName (destId d : UInt32) {id : Nat} (hid : id ≤ intMax) :
    pageIdOf destId (pageFileName d id) = some (if d = destId then some (id : Int) else none) := by
  have hhead : (some (hexDestId d) = some (hexDestId destId)) ↔ d = destId :=
    ⟨fun h => hexDestId_injective (Option.some.inj h), fun h => by rw [h]⟩
  rw [pageIdOf, split_pageFileName]
  simp only [List.head?_cons, List.getElem?_cons_succ, List.getElem?_cons_zero, Option.bind_some,
    stoi_toDigits hid, Option.map_some, hhead]
  split <;> rfl

/-- The page ids a set of files has for a destination. -/
def idsFor (destId : UInt32) (files : List (UInt32 × Nat)) : List Nat :=
  (files.filter fun f => f.1 = destId).map Prod.snd

theorem mem_idsFor {destId : UInt32} {files : List (UInt32 × Nat)} {id : Nat} :
    id ∈ idsFor destId files ↔ (destId, id) ∈ files := by
  simp only [idsFor, List.mem_map, List.mem_filter, decide_eq_true_eq]
  constructor
  · rintro ⟨f, ⟨hf, rfl⟩, rfl⟩
    exact hf
  · intro hf
    exact ⟨_, ⟨hf, rfl⟩, rfl⟩

theorem nodup_idsFor (destId : UInt32) {files : List (UInt32 × Nat)} (h : files.Nodup) :
    (idsFor destId files).Nodup := by
  refine List.Nodup.map_on ?_ (h.filter _)
  rintro ⟨a, n⟩ ha ⟨b, m⟩ hb hnm
  have ha' : a = destId := by simpa using (List.mem_filter.mp ha).2
  have hb' : b = destId := by simpa using (List.mem_filter.mp hb).2
  rw [ha', hb', show n = m from hnm]

/-- The loop collects the ids of the destination, in the order of the listing. -/
theorem collectPageIds_names (destId : UInt32) {files : List (UInt32 × Nat)}
    (h : ∀ f ∈ files, f.2 ≤ intMax) :
    collectPageIds destId (files.map fun f => pageFileName f.1 f.2) =
      some ((idsFor destId files).map Int.ofNat) := by
  induction files with
  | nil => rfl
  | cons f files ih =>
    rw [List.map_cons, collectPageIds, pageIdOf_pageFileName destId f.1 (h f List.mem_cons_self),
      ih fun x hx => h x (List.mem_cons_of_mem _ hx)]
    simp only [Option.bind_some, Option.map_some, idsFor, List.filter_cons]
    by_cases hf : f.1 = destId
    · simp [hf]
    · simp [hf]

section
variable {destId : UInt32} {files : List (UInt32 × Nat)}

theorem listPageId_names (h : ∀ f ∈ files, f.2 ≤ intMax) :
    Locator.listPageId destId (files.map fun f => pageFileName f.1 f.2) =
      some (((idsFor destId files).map Int.ofNat).insertionSort (· ≤ ·)) := by
  rw [Locator.listPageId, collectPageIds_names destId h]
  rfl

/-- Different ids sort strictly. -/
theorem sorted_idsFor (hset : files.Nodup) :
    (((idsFor destId files).map Int.ofNat).insertionSort (· ≤ ·)).Pairwise (· < ·) := by
  have hnodup : (((idsFor destId files).map Int.ofNat).insertionSort (· ≤ ·)).Nodup :=
    (List.perm_insertionSort ..).nodup_iff.mpr
    ((nodup_idsFor destId hset).map fun _ _ h => Int.ofNat.inj h)
  refine (List.pairwise_insertionSort (· ≤ ·) _).imp₂ (fun a b hle hne => ?_) hnodup
  exact lt_of_le_of_ne hle hne

theorem mem_sorted_idsFor {n : Int} :
    n ∈ ((idsFor destId files).map Int.ofNat).insertionSort (· ≤ ·) ↔
      ∃ id : Nat, n = id ∧ (destId, id) ∈ files := by
  rw [List.mem_insertionSort, List.mem_map]
  constructor
  · rintro ⟨id, hid, rfl⟩
    exact ⟨id, rfl, mem_idsFor.mp hid⟩
  · rintro ⟨id, rfl, hid⟩
    exact ⟨id, mem_idsFor.mpr hid, rfl⟩

/-- **The listing of a `Disk`** is that of the directory with its files. -/
theorem listPageId_disk {d : Disk} (hset : files.Nodup) (hids : ∀ f ∈ files, f.2 ≤ intMax)
    (hdisk : ∀ id, (destId, id) ∈ files ↔ (d.size id).isSome) :
    Locator.listPageId destId (files.map fun f => pageFileName f.1 f.2) =
      some (d.listPageId.map Int.ofNat) := by
  have hsorted : (d.listPageId.map Int.ofNat).Pairwise (· < ·) := by
    refine List.Pairwise.map Int.ofNat (fun a b hab => ?_)
      (List.Pairwise.filter _ List.pairwise_lt_range)
    exact Int.ofNat_lt.mpr hab
  have hmem : ∀ n, n ∈ ((idsFor destId files).map Int.ofNat).insertionSort (· ≤ ·) ↔
      n ∈ d.listPageId.map Int.ofNat := by
    intro n
    rw [mem_sorted_idsFor, List.mem_map]
    constructor
    · rintro ⟨id, rfl, hid⟩
      exact ⟨id, (d.mem_listPageId id).mpr ((hdisk id).mp hid), rfl⟩
    · rintro ⟨id, hid, rfl⟩
      exact ⟨id, rfl, (hdisk id).mpr ((d.mem_listPageId id).mp hid)⟩
  rw [listPageId_names hids]
  have hids' : (((idsFor destId files).map Int.ofNat).insertionSort (· ≤ ·)).Pairwise (· < ·) :=
    sorted_idsFor hset
  have hperm := (List.perm_ext_iff_of_nodup (hids'.imp ne_of_lt) (hsorted.imp ne_of_lt)).mpr hmem
  exact congrArg some (hperm.eq_of_pairwise (fun a b _ _ hab hba => absurd hab (lt_asymm hba))
    hids' hsorted)

end

/-- **Page file names read back.**  A directory that holds exactly the files named for
a set of destinations and page ids, in any order, lists for each destination its
page ids, ascending. -/
theorem page_names_round_trip (destId : UInt32) (files : List (UInt32 × Nat)) (hset : files.Nodup)
    (hids : ∀ f ∈ files, 1 ≤ f.2 ∧ f.2 ≤ intMax) :
    ∃ ids, Locator.listPageId destId (files.map fun f => pageFileName f.1 f.2) = some ids ∧
      ids.Pairwise (· < ·) ∧ ∀ n, n ∈ ids ↔ ∃ id : Nat, n = id ∧ (destId, id) ∈ files :=
  ⟨_, listPageId_names fun f hf => (hids f hf).2, sorted_idsFor hset, fun _ => mem_sorted_idsFor⟩

/-- Page 10 is listed behind page 9, and the file of another destination is left out. -/
theorem page_names_round_trip_three :
    ∃ ids, Locator.listPageId 0x1f
      ([(0x1f, 10), (0x20, 9), (0x1f, 9)].map fun f => pageFileName f.1 f.2) =
        some ids ∧ ids.Pairwise (· < ·) ∧ 9 ∈ ids ∧ 10 ∈ ids := by
  obtain ⟨ids, hlist, hsorted, hmem⟩ :=
    page_names_round_trip 0x1f [(0x1f, 10), (0x20, 9), (0x1f, 9)] (by decide) (by decide)
  exact ⟨ids, hlist, hsorted, (hmem 9).mpr ⟨9, rfl, by decide⟩, (hmem 10).mpr ⟨10, rfl, by decide⟩⟩

end Revoq
