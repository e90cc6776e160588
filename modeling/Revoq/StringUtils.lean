import Revoq.PageNames

/-! # Splitting and joining strings

The scanning loops of `StringUtils`: `split`, `splitView`, `splitFixed`, `splitAny`, and
`join`.  They look for the next delimiter from a position on and take the view up to it;
a view that starts behind the end of the string throws `std::out_of_range`, and a call
that throws has no result.

The fields a loop has still to produce at a position are those of `List.splitOn` on the
rest of the string, which is also what `Revoq.split` computes.
-/
namespace Revoq
namespace StringUtils

/-! ## Views -/

/-- A `std::string_view` into a string. -/
structure StringView where
  /-- The offset of its first character. -/
  start : Nat
  /-- Its length. -/
  length : Nat
deriving DecidableEq, Repr

/-- The characters a view shows of its string. -/
def StringView.text (src : List Char) (v : StringView) : List Char :=
  (src.drop v.start).take v.length

/-- `std::string_view::substr`, which throws if `pos` is behind the end. -/
def substr (src : List Char) (pos count : Nat) : Option StringView :=
  if pos ≤ src.length then some ⟨pos, min count (src.length - pos)⟩ else none

/-- `substr` with the default count `npos`. -/
def substrFrom (src : List Char) (pos : Nat) : Option StringView := substr src pos src.length

/-- The first position from `pos` on whose character satisfies `p`. -/
def findIf (p : Char → Bool) (src : List Char) (pos : Nat) : Option Nat :=
  ((src.drop pos).findIdx? p).map (pos + ·)

/-- `std::string_view::find` of a character; there is no result for `npos`. -/
def find (src : List Char) (delimiter : Char) (pos : Nat) : Option Nat :=
  findIf (· == delimiter) src pos

/-- `std::string_view::find_first_of`. -/
def findFirstOf (src delimiters : List Char) (pos : Nat) : Option Nat :=
  findIf delimiters.contains src pos

theorem findIf_bounds {p : Char → Bool} {src : List Char} {pos e : Nat}
    (h : findIf p src pos = some e) :
    pos ≤ e ∧ e < src.length := by
  obtain ⟨i, hi, rfl⟩ := Option.map_eq_some_iff.mp h
  obtain ⟨hlt, -⟩ := List.findIdx?_eq_some_iff_getElem.mp hi
  rw [List.length_drop] at hlt
  omega

/-! ## The loops -/

/-- The loop of `split` and `splitView` from position `start` on, with the `result` so
far; `emit` is what the vector stores for a view. -/
def scanFields {α : Type} (emit : StringView → α) (src : List Char) (delimiter : Char) (start : Nat)
    (result : List α) : Option (List α) :=
  match _h : find src delimiter start with
  | some e =>
      (substr src start (e - start)).bind fun v => scanFields emit src delimiter (e + 1)
      (result ++ [emit v])
  | none => (substrFrom src start).map fun v => result ++ [emit v]
termination_by src.length - start
decreasing_by
  have := findIf_bounds _h
  omega

/-- `StringUtils::split`. -/
def split (src : List Char) (delimiter : Char) : Option (List (List Char)) :=
  scanFields (StringView.text src) src delimiter 0 []

/-- `StringUtils::splitView`. -/
def splitView (src : List Char) (delimiter : Char) : Option (List StringView) :=
  scanFields id src delimiter 0 []

/-- The loop of `splitFixed` from position `start` on, with `count` slots filled, and
the store after it. -/
def scanFixed {N : Nat} (src : List Char) (delimiter : Char) (start count : Nat)
    (out : Vector StringView N) :
    Option (Nat × Vector StringView N) :=
  match _h : find src delimiter start with
  | some e =>
      if hc : count < N then
        (substr src start (e - start)).bind fun v =>
          scanFixed src delimiter (e + 1) (count + 1) (out.set count v hc)
      -- the array is full, and what follows is dropped
      else some (count, out)
  | none =>
      if hc : count < N ∧ start ≤ src.length then
        (substrFrom src start).map fun v => (count + 1, out.set count v hc.1)
      else some (count, out)
termination_by src.length - start
decreasing_by
  have := findIf_bounds _h
  omega

/-- `StringUtils::splitFixed`: the number of fields and the array behind it. -/
def splitFixed {N : Nat} (src : List Char) (delimiter : Char) (out : Vector StringView N) :
    Option (Nat × Vector StringView N) :=
  scanFixed src delimiter 0 0 out

/-- The loop of `splitAny` from position `start` on. -/
def scanAny (src delimiters : List Char) (start : Nat) (result : List StringView) :
    Option (List StringView) :=
  if start < src.length then
    match _h : findFirstOf src delimiters start with
    | none => (substrFrom src start).map fun v => result ++ [v]
    | some e =>
        if start < e then
          (substr src start (e - start)).bind fun v =>
            scanAny src delimiters (e + 1) (result ++ [v])
        -- adjacent delimiters leave no empty field
        else scanAny src delimiters (e + 1) result
  else some result
termination_by src.length - start
decreasing_by
  all_goals
    have := findIf_bounds _h
    omega

/-- `StringUtils::splitAny`. -/
def splitAny (src delimiters : List Char) : Option (List StringView) := scanAny src delimiters 0 []

/-- The loop of `join`. -/
def joinRest (separator : List Char) : List Char → List (List Char) → List Char
  | result, [] => result
  | result, part :: parts => joinRest separator (result ++ separator ++ part) parts

/-- `StringUtils::join`. -/
def join (parts : List (List Char)) (separator : List Char) : List Char :=
  match parts with
  | [] => []
  | part :: parts => joinRest separator part parts

/-! ## Where the next delimiter is -/

section
variable {p : Char → Bool} {src : List Char} {pos : Nat}

/-- The field up to a delimiter that was found, and the rest behind it. -/
theorem splitOnP_drop {e : Nat} (h : findIf p src pos = some e) :
    (src.drop pos).splitOnP p = (src.drop pos).take (e - pos) :: (src.drop (e + 1)).splitOnP p := by
  obtain ⟨i, hi, rfl⟩ := Option.map_eq_some_iff.mp h
  obtain ⟨hlt, hp, hbefore⟩ := List.findIdx?_eq_some_iff_getElem.mp hi
  have hrest : src.drop pos =
      (src.drop pos).take i ++ (src.drop pos)[i] :: src.drop (pos + i + 1) := by
    rw [Nat.add_assoc, ← List.drop_drop, List.getElem_cons_drop, List.take_append_drop]
  have hfree : ∀ c ∈ (src.drop pos).take i, p c = false := by
    intro c hc
    obtain ⟨j, hj, rfl⟩ := List.mem_iff_getElem.mp hc
    rw [List.length_take] at hj
    rw [List.getElem_take]
    simpa using hbefore j (by omega)
  conv_lhs => rw [hrest]
  rw [List.splitOnP_append_cons_of_forall_mem hfree _ hp, Nat.add_sub_cancel_left]

/-- The last field, when there is no delimiter left. -/
theorem splitOnP_drop_last (h : findIf p src pos = none) :
    (src.drop pos).splitOnP p = [src.drop pos] :=
  List.splitOnP_eq_singleton (List.findIdx?_eq_none_iff.mp (Option.map_eq_none_iff.mp h))

theorem substr_text (count : Nat) (h : pos ≤ src.length) :
    ∃ v, substr src pos count = some v ∧ v.text src = (src.drop pos).take count := by
  refine ⟨_, if_pos h, ?_⟩
  rw [StringView.text, ← List.length_drop, ← List.take_take, List.take_length]

theorem substrFrom_text (h : pos ≤ src.length) :
    ∃ v, substrFrom src pos = some v ∧ v.text src = src.drop pos := by
  obtain ⟨v, hv, htext⟩ := substr_text src.length h
  refine ⟨v, hv, htext.trans (List.take_of_length_le ?_)⟩
  rw [List.length_drop]
  omega

end

/-! ## What the loops have still to produce

Each loop is followed along its own recursion: at position `start` it produces the
fields of the rest of the string. -/

section
variable {src : List Char}

theorem scanFields_fields {α : Type} (emit : StringView → α) (delimiter : Char) {start : Nat}
    (result : List α) (hstart : start ≤ src.length) :
    ∃ vs : List StringView, scanFields emit src delimiter start result =
      some (result ++ vs.map emit) ∧
      vs.map (StringView.text src) = (src.drop start).splitOn delimiter := by
  fun_induction scanFields emit src delimiter start result with
  | case1 start result e hfound ih =>
    obtain ⟨v, hv, htext⟩ := substr_text (e - start) hstart
    obtain ⟨vs, hrest, hfields⟩ := ih v (findIf_bounds hfound).2
    refine ⟨v :: vs, ?_, ?_⟩
    · rw [hv, Option.bind_some, hrest]
      simp
    · rw [List.map_cons, htext, hfields, List.splitOn_eq_splitOnP, List.splitOn_eq_splitOnP,
        splitOnP_drop hfound]
  | case2 start result hnone =>
    obtain ⟨v, hv, htext⟩ := substrFrom_text hstart
    refine ⟨[v], by rw [hv]; rfl, ?_⟩
    rw [List.splitOn_eq_splitOnP, splitOnP_drop_last hnone, List.map_singleton, htext]

/-- **`split` gives the fields.** -/
theorem split_eq_splitOn (src : List Char) (delimiter : Char) :
    split src delimiter = some (src.splitOn delimiter) := by
  obtain ⟨vs, hscan, hfields⟩ := scanFields_fields (StringView.text src) delimiter []
    (Nat.zero_le src.length)
  rw [split, hscan, hfields]
  rfl

/-- **`splitView` gives views of the fields.** -/
theorem splitView_fields (src : List Char) (delimiter : Char) :
    ∃ vs, splitView src delimiter = some vs ∧ vs.map (StringView.text src) =
      src.splitOn delimiter := by
  obtain ⟨vs, hscan, hfields⟩ := scanFields_fields id delimiter [] (Nat.zero_le src.length)
  exact ⟨vs, by simpa [splitView] using hscan, hfields⟩

/-- **`splitAny` gives views of the fields that are not empty.** -/
theorem scanAny_fields (src delimiters : List Char) (start : Nat) (result : List StringView) :
    ∃ vs : List StringView, scanAny src delimiters start result = some (result ++ vs) ∧
      vs.map (StringView.text src) =
        ((src.drop start).splitOnP delimiters.contains).filter (· ≠ []) := by
  fun_induction scanAny src delimiters start result with
  | case1 start result hstart hnone =>
    obtain ⟨v, hv, htext⟩ := substrFrom_text hstart.le
    refine ⟨[v], by rw [hv]; rfl, ?_⟩
    have hne : src.drop start ≠ [] := fun h => by simp at h; omega
    rw [splitOnP_drop_last hnone, List.map_singleton, htext]
    simp [hne]
  | case2 start result hstart e hfound hlt ih =>
    obtain ⟨v, hv, htext⟩ := substr_text (e - start) hstart.le
    obtain ⟨vs, hrest, hfields⟩ := ih v
    refine ⟨v :: vs, ?_, ?_⟩
    · rw [hv, Option.bind_some, hrest]
      simp
    · have hne : (src.drop start).take (e - start) ≠ [] := fun h => by simp at h; omega
      rw [List.map_cons, htext, hfields, splitOnP_drop hfound,
        List.filter_cons_of_pos (by simpa using hne)]
  | case3 start result hstart e hfound hle ih =>
    obtain ⟨vs, hrest, hfields⟩ := ih
    refine ⟨vs, hrest, ?_⟩
    have heq : e - start = 0 := by omega
    rw [hfields, splitOnP_drop hfound, heq, List.take_zero]
    rfl
  | case4 start result hstart =>
    refine ⟨[], by simp, ?_⟩
    rw [List.drop_of_length_le (by omega)]
    rfl

/-- From slot `count` on, `out'` shows the fields as far as there are slots; every other
slot is that of `out`. -/
structure Filled {N : Nat} (src : List Char) (fields : List (List Char)) (count : Nat)
    (out out' : Vector StringView N) : Prop where
  stored : ∀ i (_ : i < N), count ≤ i → i < count + fields.length →
    fields[i - count]? = some (out'[i].text src)
  kept : ∀ i (_ : i < N), i < count ∨ count + fields.length ≤ i → out'[i] = out[i]

theorem Filled.full {N count : Nat} (h : N ≤ count) (fields : List (List Char))
    (out : Vector StringView N) :
    Filled src fields count out out where
  stored i _ _ _ := by omega
  kept _ _ _ := rfl

theorem Filled.nil {N : Nat} (count : Nat) (out : Vector StringView N) :
    Filled src [] count out out where
  stored i _ _ hi := by simp at hi; omega
  kept _ _ _ := rfl

theorem Filled.cons {N count : Nat} {fields : List (List Char)} {out out' : Vector StringView N}
    {v : StringView} (hc : count < N)
    (h : Filled src fields (count + 1) (out.set count v hc) out') :
    Filled src (v.text src :: fields) count out out' where
  stored i hiN hge hlt := by
    rw [List.length_cons] at hlt
    rcases hge.eq_or_lt with rfl | hgt
    · rw [h.kept count hiN (.inl (by omega)), Vector.getElem_set_self, Nat.sub_self,
        List.getElem?_cons_zero]
    · rw [← h.stored i hiN hgt (by omega), show i - count = (i - (count + 1)) + 1 by omega,
        List.getElem?_cons_succ]
  kept i hiN hi := by
    rw [List.length_cons] at hi
    rw [h.kept i hiN (by omega), Vector.getElem_set_ne _ _ (by omega)]

theorem scanFixed_fields {N : Nat} (delimiter : Char) {start count : Nat}
    (out : Vector StringView N) (hstart : start ≤ src.length) (hcount : count ≤ N) :
    ∃ out', scanFixed src delimiter start count out =
        some (min N (count + ((src.drop start).splitOn delimiter).length), out') ∧
      Filled src ((src.drop start).splitOn delimiter) count out out' := by
  fun_induction scanFixed src delimiter start count out with
  | case1 start count out e hfound hc ih =>
    obtain ⟨v, hv, htext⟩ := substr_text (e - start) hstart
    obtain ⟨out', hrest, hfilled⟩ := ih v (findIf_bounds hfound).2 hc
    have hfields : (src.drop start).splitOn delimiter =
        v.text src :: (src.drop (e + 1)).splitOn delimiter := by
      rw [List.splitOn_eq_splitOnP, List.splitOn_eq_splitOnP, splitOnP_drop hfound, htext]
    refine ⟨out', ?_, ?_⟩
    · rw [hv, Option.bind_some, hrest, hfields, List.length_cons, Nat.add_right_comm, Nat.add_assoc]
    · rw [hfields]
      exact Filled.cons hc hfilled
  | case2 start count out e hfound hc =>
    exact ⟨out, by rw [Nat.min_eq_left (by omega), show count = N by omega],
      Filled.full (by omega) _ out⟩
  | case3 start count out hnone hc =>
    obtain ⟨v, hv, htext⟩ := substrFrom_text hstart
    have hfields : (src.drop start).splitOn delimiter = [v.text src] := by
      rw [List.splitOn_eq_splitOnP, splitOnP_drop_last hnone, htext]
    refine ⟨out.set count v hc.1, ?_, ?_⟩
    · rw [hv, hfields, List.length_singleton, Nat.min_eq_right hc.1]
      rfl
    · rw [hfields]
      exact Filled.cons hc.1 (Filled.nil (count + 1) _)
  | case4 start count out hnone hc =>
    exact ⟨out, by rw [Nat.min_eq_left (by omega), show count = N by omega],
      Filled.full (by omega) _ out⟩

end

/-! ## Joining -/

theorem joinRest_eq (separator result : List Char) (parts : List (List Char)) :
    joinRest separator result parts = separator.intercalate (result :: parts) := by
  induction parts generalizing result with
  | nil => simp [joinRest, List.intercalate]
  | cons part parts ih =>
    rw [joinRest, ih]
    cases parts <;> simp [List.intercalate]

theorem join_eq_intercalate (parts : List (List Char)) (separator : List Char) :
    join parts separator = separator.intercalate parts := by
  cases parts with
  | nil => rfl
  | cons part parts => exact joinRest_eq separator part parts

/-- No field has the delimiter in it. -/
theorem notMem_of_mem_splitOn {src field : List Char} {delimiter : Char}
    (h : field ∈ src.splitOn delimiter) : delimiter ∉ field := by
  induction src generalizing field with
  | nil =>
    rw [List.splitOn_nil, List.mem_singleton] at h
    simp [h]
  | cons c cs ih =>
    rw [List.splitOn_cons_eq_if_modifyHead] at h
    by_cases hc : c = delimiter
    · rw [if_pos (by simpa using hc), List.mem_cons] at h
      rcases h with rfl | h
      · simp
      · exact ih h
    · rw [if_neg (by simpa using hc)] at h
      obtain ⟨first, rest, hsplit⟩ := List.exists_cons_of_ne_nil (List.splitOn_ne_nil delimiter cs)
      rw [hsplit, List.modifyHead_cons, List.mem_cons] at h
      rcases h with rfl | h
      · have := @ih first (by simp [hsplit])
        simp [this, Ne.symm hc]
      · exact ih (by simp [hsplit, h])

/-! ## The fields of `Revoq.split` -/

theorem splitFrom_eq (delimiter : Char) (part src : List Char) :
    splitFrom delimiter part src = (src.splitOn delimiter).modifyHead (part ++ ·) := by
  induction src generalizing part with
  | nil => simp [splitFrom]
  | cons c cs ih =>
    rw [splitFrom, List.splitOn_cons_eq_if_modifyHead]
    obtain ⟨first, rest, hsplit⟩ := List.exists_cons_of_ne_nil (List.splitOn_ne_nil delimiter cs)
    by_cases hc : c = delimiter
    · rw [if_pos hc, if_pos (by simpa using hc), ih, hsplit]
      simp
    · rw [if_neg hc, if_neg (by simpa using hc), ih, hsplit]
      simp

/-- The `split` of the page names is the one of the scanning loop. -/
theorem split_eq_split (src : List Char) (delimiter : Char) :
    split src delimiter = some (Revoq.split src delimiter) := by
  have hid : (fun part => ([] : List Char) ++ part) = id := rfl
  rw [split_eq_splitOn, Revoq.split, splitFrom_eq, hid, List.modifyHead_id]
  rfl

/-! ## The family -/

/-- **The split family agrees.**  For every string and delimiter `split` has a result;
joined with the delimiter it is the string, and no field has the delimiter in it.
`splitView` shows the same fields; `splitFixed` stores the first of them, as many as there
are slots, and nothing else; `splitAny` on the one delimiter shows those that are not
empty.  And `split` is the left inverse of `join` on fields without the delimiter. -/
theorem split_family (s : List Char) (d : Char) :
    ∃ fields, split s d = some fields ∧
      join fields [d] = s ∧
      (∀ field ∈ fields, d ∉ field) ∧
      (∃ vs, splitView s d = some vs ∧ vs.map (StringView.text s) = fields) ∧
      (∀ parts, parts ≠ [] → (∀ part ∈ parts, d ∉ part) → split (join parts [d]) d = some parts) ∧
      (∀ (N : Nat) (out : Vector StringView N), ∃ count out',
        splitFixed s d out = some (count, out') ∧ count = min N fields.length ∧
        (∀ i (_ : i < N), i < count → fields[i]? = some (out'[i].text s)) ∧
        ∀ i (_ : i < N), count ≤ i → out'[i] = out[i]) ∧
      ∃ vs, splitAny s [d] = some vs ∧ vs.map (StringView.text s) = fields.filter (· ≠ []) := by
  refine ⟨s.splitOn d, split_eq_splitOn s d, ?_, fun field => notMem_of_mem_splitOn,
    splitView_fields s d, ?_, ?_, ?_⟩
  · rw [join_eq_intercalate, List.intercalate_splitOn]
  · intro parts hne hfree
    rw [join_eq_intercalate, split_eq_splitOn, List.splitOn_intercalate d hfree hne]
  · intro N out
    obtain ⟨out', hscan, hfilled⟩ := scanFixed_fields d out (Nat.zero_le s.length) (Nat.zero_le N)
    rw [List.drop_zero, Nat.zero_add] at hscan
    rw [List.drop_zero] at hfilled
    refine ⟨_, out', hscan, rfl, ?_, ?_⟩
    · intro i hi hlt
      exact hfilled.stored i hi (Nat.zero_le i) (by omega)
    · intro i hi hge
      exact hfilled.kept i hi (.inr (by omega))
  · obtain ⟨vs, hscan, hfields⟩ := scanAny_fields s [d] 0 []
    have hcontains : [d].contains = (· == d) := by
      funext c
      rw [List.contains_cons, List.contains_nil, Bool.or_false]
    rw [List.drop_zero, hcontains, ← List.splitOn_eq_splitOnP] at hfields
    exact ⟨vs, hscan, hfields⟩

end StringUtils
end Revoq
