import Revoq.PageNames

/-! # The CPUs of the background threads

`detail::makeHousekeepingCpuSet` keeps the background threads off the CPUs that the kernel
lists as isolated or `nohz_full`.  `cpuListContains` parses such a list; a call of it has
no result if `std::stoi` throws.

A kernel list is written from ranges (`CpuList`), and the parser is compared with the
ranges it was written from.
-/
namespace Revoq

/-! ## The code -/

/-- `std::getline` on what is left of a stream: the characters up to the delimiter, and
the stream behind it.  It fails at the end of the stream. -/
def getline (delim : Char) (stream : List Char) : Option (List Char × List Char) :=
  match stream with
  | [] => none
  | _ :: _ => some (stream.takeWhile (· != delim), (stream.dropWhile (· != delim)).drop 1)

theorem getline_shorter {delim : Char} {stream token rest : List Char}
    (h : getline delim stream = some (token, rest)) : rest.length < stream.length := by
  cases stream with
  | nil => cases h
  | cons c cs =>
    cases h
    have hdrop := ((c :: cs).dropWhile_suffix (· != delim)).length_le
    rw [List.length_drop]
    rw [List.length_cons] at hdrop ⊢
    omega

/-- `readCpuListFile`: the first line of a file, which is empty if there is none. -/
def readCpuListFile (file : Option (List Char)) : List Char :=
  match file.bind (getline '\n') with
  | some (line, _) => line
  | none => []

/-- `lo` and `hi` of a token: the numbers around its first dash. -/
def tokenRange (token : List Char) : Option (Int × Int) := do
  let dash := token.findIdx? (· == '-')
  let lo ← stoi (token.take (dash.getD token.length))
  let hi ← match dash with
    | none => some lo
    | some dash => stoi (token.drop (dash + 1))
  return (lo, hi)

/-- One turn of the loop of `cpuListContains`: whether it returns `true`. -/
def tokenContains (token : List Char) (cpu : Int) : Option Bool :=
  match token with
  | [] => some false
  | front :: _ =>
      if front < '0' ∨ '9' < front then some false
      else (tokenRange token).map fun (lo, hi) => decide (lo ≤ cpu ∧ cpu ≤ hi)

/-- `cpuListContains`. -/
def cpuListContains (list : List Char) (cpu : Int) : Option Bool :=
  match _h : getline ',' list with
  | none => some false
  | some (token, rest) =>
      (tokenContains token cpu).bind fun found => if found then some true
      else cpuListContains rest cpu
termination_by list.length
decreasing_by exact getline_shorter _h

/-- `CPU_SETSIZE`. -/
def cpuSetSize : Nat := 1024

/-- A `cpu_set_t`: whether the bit of a CPU is set. -/
abbrev CpuSet := Nat → Bool

/-- `CPU_ZERO`. -/
def cpuZero : CpuSet := fun _ => false

/-- `CPU_SET`, which leaves the set alone if it has no such bit. -/
def cpuSet (cpu : Nat) (cpuset : CpuSet) : CpuSet :=
  fun c => cpuset c || (c == cpu && decide (cpu < cpuSetSize))

/-- The first loop of `makeHousekeepingCpuSet` over the CPUs, with `selected`. -/
def selectCpus (isolated nohzFull : List Char) : List Nat → CpuSet → Nat → Option (CpuSet × Nat)
  | [], cpuset, selected => some (cpuset, selected)
  | cpu :: cpus, cpuset, selected => do
      let skipped ← (cpuListContains isolated cpu).bind fun found =>
        -- the second list is asked only about a CPU that the first does not have
        if found then some true else cpuListContains nohzFull cpu
      if skipped then selectCpus isolated nohzFull cpus cpuset selected
      else selectCpus isolated nohzFull cpus (cpuSet cpu cpuset) (selected + 1)

/-- `makeHousekeepingCpuSet` with the two files and what `sysconf` returns: the set and
the return value. -/
def makeHousekeepingCpuSet (isolatedFile nohzFullFile : Option (List Char))
    (nprocessorsConf : Int) :
    Option (CpuSet × Bool) := do
  let isolated := readCpuListFile isolatedFile
  let nohzFull := readCpuListFile nohzFullFile
  let cpuCount : Nat :=
    if nprocessorsConf ≤ 0 ∨ (cpuSetSize : Int) < nprocessorsConf then cpuSetSize
    else nprocessorsConf.toNat
  let (cpuset, selected) ← selectCpus isolated nohzFull (List.range cpuCount) cpuZero 0
  if 0 < selected then return (cpuset, true)
  -- no CPU is left over, so every CPU is allowed
  else return ((List.range cpuCount).foldl (fun cpuset cpu => cpuSet cpu cpuset) cpuset,
    decide (0 < cpuCount))

/-! ## Kernel lists -/

/-- A decimal number that fits an `int`. -/
structure Decimal where
  /-- Its digits. -/
  digits : List Char
  ne_nil : digits ≠ []
  isDigit : ∀ c ∈ digits, c.isDigit
  fits : Nat.ofDigitChars 10 digits 0 ≤ intMax

/-- The value of a number. -/
def Decimal.value (n : Decimal) : Nat := Nat.ofDigitChars 10 n.digits 0

/-- An item of a list. -/
inductive CpuRange where
  | single (n : Decimal)
  | range (lo hi : Decimal)

/-- How the item is written. -/
def CpuRange.text : CpuRange → List Char
  | .single n => n.digits
  | .range lo hi => lo.digits ++ '-' :: hi.digits

/-- The first CPU of the item. -/
def CpuRange.lo : CpuRange → Nat
  | .single n => n.value
  | .range lo _ => lo.value

/-- The last CPU of the item. -/
def CpuRange.hi : CpuRange → Nat
  | .single n => n.value
  | .range _ hi => hi.value

/-- A kernel list: ranges in any order, or a text that is no list, in which nothing
between commas starts with a digit. -/
inductive CpuList where
  | items (ranges : List CpuRange)
  | placeholder (text : List Char)
      (nonNumeric : ∀ part ∈ text.splitOn ',', ∀ c, part.head? = some c → c.isDigit = false)
      (oneLine : '\n' ∉ text)

/-- The ranges of a list. -/
def CpuList.ranges : CpuList → List CpuRange
  | .items ranges => ranges
  | .placeholder .. => []

/-- How the list is written. -/
def CpuList.text : CpuList → List Char
  | .items ranges => [','].intercalate (ranges.map CpuRange.text)
  | .placeholder text _ _ => text

/-- The CPU is in one of the ranges. -/
def CpuList.Contains (list : CpuList) (cpu : Int) : Prop :=
  ∃ r ∈ list.ranges, (r.lo : Int) ≤ cpu ∧ cpu ≤ r.hi

instance (list : CpuList) (cpu : Int) : Decidable (list.Contains cpu) :=
  inferInstanceAs (Decidable (∃ r ∈ list.ranges, (r.lo : Int) ≤ cpu ∧ cpu ≤ r.hi))

/-- A file whose first line is a list; `more` is what follows the line end, if there is
one. -/
structure CpuListFile where
  /-- The list. -/
  list : CpuList
  /-- The lines behind it. -/
  more : Option (List Char)

/-- The bytes of the file. -/
def CpuListFile.content (file : CpuListFile) : List Char :=
  match file.more with
  | none => file.list.text
  | some more => file.list.text ++ '\n' :: more

/-! ## The tokens of a list -/

/-- A token is the next part between commas.  At the end of the stream `getline` fails
where `splitOn` still has an empty part. -/
theorem getline_split {delim : Char} {stream token rest : List Char}
    (h : getline delim stream = some (token, rest)) :
    stream.splitOn delim = [token] ∧ rest = [] ∨
      stream.splitOn delim = token :: rest.splitOn delim := by
  have hsplit : stream.takeWhile (· != delim) = token ∧
      (stream.dropWhile (· != delim)).drop 1 = rest := by
    cases stream with
    | nil => cases h
    | cons c cs =>
      cases h
      exact ⟨rfl, rfl⟩
  have hfree : delim ∉ token := by
    intro hmem
    rw [← hsplit.1] at hmem
    simpa using List.mem_takeWhile_imp hmem
  have happend := List.takeWhile_append_dropWhile (p := (· != delim)) (l := stream)
  rw [hsplit.1] at happend
  cases hdrop : stream.dropWhile (· != delim) with
  | nil =>
    rw [hdrop, List.append_nil] at happend
    rw [hdrop] at hsplit
    exact .inl ⟨by rw [← happend]; exact List.splitOn_eq_singleton hfree, hsplit.2.symm⟩
  | cons c cs =>
    have hc : c = delim := by
      have := List.head?_dropWhile_not (· != delim) stream
      rw [hdrop] at this
      simpa using this
    rw [hdrop, hc] at happend
    rw [hdrop] at hsplit
    rw [← happend, List.splitOn_append_cons_self_of_not_mem hfree, ← hsplit.2]
    exact .inr rfl

/-- **`cpuListContains` looks at the parts between commas**, if `stoi` throws on none of
them. -/
theorem cpuListContains_eq_any {list : List Char} {cpu : Int}
    (h : ∀ part ∈ list.splitOn ',', ∃ b, tokenContains part cpu = some b) :
    cpuListContains list cpu =
      some ((list.splitOn ',').any fun part => (tokenContains part cpu).getD false) := by
  fun_induction cpuListContains list cpu with
  | case1 list hend =>
    cases list with
    | nil => rfl
    | cons c cs => cases hend
  | case2 list token rest hnext ih =>
    rcases getline_split hnext with ⟨hsplit, hrest⟩ | hsplit
    · rw [hsplit] at h ⊢
      obtain ⟨b, hb⟩ := h token List.mem_cons_self
      have hlast : cpuListContains rest cpu = some false := by rw [hrest, cpuListContains]; rfl
      rw [hb, Option.bind_some, hlast]
      cases b <;> simp [hb]
    · rw [hsplit] at h ⊢
      obtain ⟨b, hb⟩ := h token List.mem_cons_self
      rw [hb, Option.bind_some, ih fun part hpart => h part (List.mem_cons_of_mem _ hpart),
        List.any_cons, hb]
      cases b <;> rfl

/-! ## The items of a list -/

theorem Decimal.stoi (n : Decimal) : stoi n.digits = some (n.value : Int) :=
  stoi_digits n.ne_nil n.isDigit n.fits

theorem Decimal.notMem (n : Decimal) {c : Char} (h : c.isDigit = false) : c ∉ n.digits := by
  intro hmem
  rw [n.isDigit c hmem] at h
  cases h

/-- A character that is no digit and no dash is in no item. -/
theorem CpuRange.notMem_text (r : CpuRange) {c : Char} (hdigit : c.isDigit = false)
    (hdash : c ≠ '-') :
    c ∉ r.text := by
  cases r with
  | single n => exact n.notMem hdigit
  | range lo hi =>
    simp only [CpuRange.text, List.mem_append, List.mem_cons, not_or]
    exact ⟨lo.notMem hdigit, hdash, hi.notMem hdigit⟩

theorem Decimal.findIdx_dash (n : Decimal) : n.digits.findIdx? (· == '-') = none := by
  rw [List.findIdx?_eq_none_iff]
  intro c hc
  have hne : c ≠ '-' := fun h => n.notMem (show '-'.isDigit = false by decide) (h ▸ hc)
  simpa using hne

/-- The numbers of an item. -/
theorem CpuRange.tokenRange_text (r : CpuRange) :
    tokenRange r.text = some ((r.lo : Int), (r.hi : Int)) := by
  cases r with
  | single n =>
    simp only [tokenRange, CpuRange.text, n.findIdx_dash, Option.getD_none,
      List.take_length, n.stoi]
    rfl
  | range lo hi =>
    have hdash : (lo.digits ++ '-' :: hi.digits).findIdx? (· == '-') = some lo.digits.length := by
      rw [List.findIdx?_append, lo.findIdx_dash, List.findIdx?_cons]
      simp
    have hrest : (lo.digits ++ '-' :: hi.digits).drop (lo.digits.length + 1) = hi.digits := by
      rw [← List.drop_drop, List.drop_left]
      rfl
    simp only [tokenRange, CpuRange.text, hdash, Option.getD_some, List.take_left,
      lo.stoi, hrest, hi.stoi]
    rfl

/-- An item starts with a digit. -/
theorem CpuRange.text_cons (r : CpuRange) : ∃ c cs, r.text = c :: cs ∧ c.isDigit := by
  have hdigits : ∀ (n : Decimal) (rest : List Char), ∃ c cs,
      n.digits ++ rest = c :: cs ∧ c.isDigit := by
    intro n rest
    obtain ⟨c, cs, hcons⟩ := List.exists_cons_of_ne_nil n.ne_nil
    exact ⟨c, cs ++ rest, by rw [hcons]; rfl, n.isDigit c (by rw [hcons]; exact List.mem_cons_self)⟩
  cases r with
  | single n =>
    have h := hdigits n []
    rwa [List.append_nil] at h
  | range lo hi => exact hdigits lo ('-' :: hi.digits)

/-- **An item is read back.** -/
theorem CpuRange.tokenContains_text (r : CpuRange) (cpu : Int) :
    tokenContains r.text cpu = some (decide ((r.lo : Int) ≤ cpu ∧ cpu ≤ r.hi)) := by
  obtain ⟨c, cs, hcons, hc⟩ := r.text_cons
  have hfront : ¬(c < '0' ∨ '9' < c) := by simpa [Char.isDigit, Char.lt_def, UInt32.not_lt] using hc
  have hrange := r.tokenRange_text
  rw [hcons] at hrange ⊢
  rw [tokenContains, if_neg hfront, hrange]
  rfl

/-- A part that starts with no digit is skipped. -/
theorem tokenContains_nonNumeric {part : List Char}
    (h : ∀ c, part.head? = some c → c.isDigit = false) (cpu : Int) :
    tokenContains part cpu = some false := by
  cases part with
  | nil => rfl
  | cons c cs =>
    have hc : c.isDigit = false := h c rfl
    have hfront : c < '0' ∨ '9' < c := by
      by_contra hbetween
      have : c.isDigit = true := by simpa [Char.isDigit, Char.lt_def, UInt32.not_lt] using hbetween
      rw [this] at hc
      cases hc
    rw [tokenContains, if_pos hfront]

/-- The parts of a list of items are the items. -/
theorem splitOn_items {ranges : List CpuRange} (hne : ranges ≠ []) :
    ([','].intercalate (ranges.map CpuRange.text)).splitOn ',' = ranges.map CpuRange.text := by
  refine List.splitOn_intercalate ',' ?_ (by simpa using hne)
  intro part hpart
  obtain ⟨r, -, rfl⟩ := List.mem_map.mp hpart
  exact r.notMem_text (by decide) (by decide)

/-- **The parser agrees with the ranges** a list was written from. -/
theorem CpuList.cpuListContains_text (list : CpuList) (cpu : Int) :
    cpuListContains list.text cpu = some (decide (list.Contains cpu)) := by
  cases list with
  | items ranges =>
    by_cases hne : ranges = []
    · subst hne
      rw [CpuList.text, List.map_nil, List.intercalate_nil, cpuListContains]
      simp [getline, CpuList.Contains, CpuList.ranges]
    · have hparts : (CpuList.items ranges).text.splitOn ',' = ranges.map CpuRange.text :=
        splitOn_items hne
      rw [cpuListContains_eq_any, hparts, List.any_map]
      · refine congrArg some (Bool.eq_iff_iff.mpr ?_)
        rw [decide_eq_true_iff]
        simp [CpuRange.tokenContains_text, CpuList.Contains, CpuList.ranges]
      · rw [hparts]
        intro part hpart
        obtain ⟨r, -, rfl⟩ := List.mem_map.mp hpart
        exact ⟨_, r.tokenContains_text cpu⟩
  | placeholder text nonNumeric oneLine =>
    have hskip : ∀ part ∈ text.splitOn ',', tokenContains part cpu = some false := fun part hpart =>
      tokenContains_nonNumeric (nonNumeric part hpart) cpu
    rw [CpuList.text, cpuListContains_eq_any fun part hpart => ⟨_, hskip part hpart⟩]
    have hnone : (text.splitOn ',').any (fun part => (tokenContains part cpu).getD false) =
        false := by
      rw [List.any_eq_false]
      intro part hpart
      simp [hskip part hpart]
    rw [hnone]
    simp [CpuList.Contains, CpuList.ranges]

/-! ## The first line of a file -/

theorem notMem_intercalate {c : Char} {sep : List Char} {parts : List (List Char)} (hsep : c ∉ sep)
    (hparts : ∀ part ∈ parts, c ∉ part) : c ∉ sep.intercalate parts := by
  induction parts with
  | nil => simp
  | cons part parts ih =>
    have hfirst := hparts part List.mem_cons_self
    have hrest := ih fun x hx => hparts x (List.mem_cons_of_mem _ hx)
    cases parts with
    | nil => simpa using hfirst
    | cons next parts =>
      rw [List.intercalate_cons_cons]
      simp only [List.mem_append, not_or]
      exact ⟨⟨hfirst, hsep⟩, hrest⟩

theorem CpuList.newline_notMem (list : CpuList) : '\n' ∉ list.text := by
  cases list with
  | items ranges =>
    refine notMem_intercalate (by decide) fun part hpart => ?_
    obtain ⟨r, -, rfl⟩ := List.mem_map.mp hpart
    exact r.notMem_text (by decide) (by decide)
  | placeholder text nonNumeric oneLine => exact oneLine

theorem getline_line {delim : Char} {line : List Char} (hfree : delim ∉ line) (more : List Char) :
    getline delim (line ++ delim :: more) = some (line, more) := by
  have hpass : ∀ c ∈ line, (c != delim) = true := fun c hc => by
    have hne : c ≠ delim := fun h => hfree (h ▸ hc)
    simpa using hne
  have htake : (line ++ delim :: more).takeWhile (· != delim) = line := by
    rw [List.takeWhile_append_of_pos hpass]
    simp
  have hdrop : (line ++ delim :: more).dropWhile (· != delim) = delim :: more := by
    rw [List.dropWhile_append_of_pos hpass]
    simp
  have hsome : getline delim (line ++ delim :: more) =
      some ((line ++ delim :: more).takeWhile (· != delim),
        ((line ++ delim :: more).dropWhile (· != delim)).drop 1) := by
    cases line <;> rfl
  rw [hsome, htake, hdrop]
  rfl

/-- The list is the first line of its file. -/
theorem CpuListFile.readCpuListFile_content (file : CpuListFile) :
    readCpuListFile (some file.content) = file.list.text := by
  have hfree := file.list.newline_notMem
  unfold CpuListFile.content readCpuListFile
  cases file.more with
  | some more => simp only [Option.bind_some, getline_line hfree more]
  | none =>
    cases htext : file.list.text with
    | nil => rfl
    | cons c cs =>
      rw [htext] at hfree
      have hall : (c :: cs).takeWhile (· != '\n') = c :: cs := by
        rw [List.takeWhile_eq_self_iff]
        intro x hx
        have hne : x ≠ '\n' := fun h => hfree (h ▸ hx)
        simpa using hne
      simp only [Option.bind_some, getline, hall]

/-! ## Selecting the CPUs -/

section
variable {isolated nohzFull : List Char} {a b : Nat → Bool}

/-- The first loop sets the CPUs that are in neither list, and counts them. -/
theorem selectCpus_eq (ha : ∀ cpu : Nat, cpuListContains isolated cpu = some (a cpu))
    (hb : ∀ cpu : Nat, cpuListContains nohzFull cpu = some (b cpu)) (cpus : List Nat)
    (cpuset : CpuSet) (selected : Nat) :
    selectCpus isolated nohzFull cpus cpuset selected =
      some ((cpus.filter fun cpu => !(a cpu || b cpu)).foldl
        (fun cpuset cpu => cpuSet cpu cpuset) cpuset,
        selected + (cpus.filter fun cpu => !(a cpu || b cpu)).length) := by
  induction cpus generalizing cpuset selected with
  | nil => rfl
  | cons cpu cpus ih =>
    have hskipped : ((cpuListContains isolated cpu).bind fun found =>
        if found then some true else cpuListContains nohzFull cpu) = some (a cpu || b cpu) := by
      rw [ha cpu, hb cpu, Option.bind_some]
      cases a cpu <;> rfl
    rw [selectCpus, hskipped, Option.bind_eq_bind, Option.bind_some]
    cases hskip : a cpu || b cpu with
    | true => rw [if_pos rfl, ih, List.filter_cons_of_neg (by simp [hskip])]
    | false =>
      rw [if_neg Bool.false_ne_true, ih, List.filter_cons_of_pos (by simp [hskip]), List.foldl_cons,
        List.length_cons, Nat.add_assoc, Nat.add_comm 1]

theorem foldl_cpuSet (cpus : List Nat) (cpuset : CpuSet) (c : Nat) :
    cpus.foldl (fun cpuset cpu => cpuSet cpu cpuset) cpuset c = true ↔
      cpuset c = true ∨ c ∈ cpus ∧ c < cpuSetSize := by
  induction cpus generalizing cpuset with
  | nil => simp
  | cons cpu cpus ih =>
    rw [List.foldl_cons, ih]
    simp only [cpuSet, Bool.or_eq_true, Bool.and_eq_true, beq_iff_eq,
      decide_eq_true_eq, List.mem_cons]
    constructor
    · rintro ((h | ⟨rfl, h⟩) | ⟨hmem, h⟩)
      · exact .inl h
      · exact .inr ⟨.inl rfl, h⟩
      · exact .inr ⟨.inr hmem, h⟩
    · rintro (h | ⟨rfl | hmem, h⟩)
      · exact .inl (.inl h)
      · exact .inl (.inr ⟨rfl, h⟩)
      · exact .inr ⟨hmem, h⟩

end

/-- **The housekeeping CPUs.**  For every two kernel lists, in files of one line or more, and
every number of CPUs up to `CPU_SETSIZE`, the parser finds a CPU in a list exactly if one of
its ranges has it, and the set has the CPUs that are in neither list, or every CPU if there
is no such CPU. -/
theorem housekeeping_cpus (isolated nohzFull : CpuListFile) (cpuCount : Nat) (hpos : 1 ≤ cpuCount)
    (hsize : cpuCount ≤ cpuSetSize) :
    (∀ cpu, cpuListContains isolated.list.text cpu = some (decide (isolated.list.Contains cpu)) ∧
      cpuListContains nohzFull.list.text cpu = some (decide (nohzFull.list.Contains cpu))) ∧
    ∃ cpuset, makeHousekeepingCpuSet (some isolated.content) (some nohzFull.content) cpuCount =
        some (cpuset, true) ∧
      ∀ c : Nat, cpuset c = true ↔ c < cpuCount ∧
        (¬isolated.list.Contains c ∧ ¬nohzFull.list.Contains c ∨
          ∀ c' : Nat, c' < cpuCount → isolated.list.Contains c' ∨ nohzFull.list.Contains c') := by
  refine ⟨fun cpu =>
    ⟨isolated.list.cpuListContains_text cpu, nohzFull.list.cpuListContains_text cpu⟩, ?_⟩
  have hselect := selectCpus_eq (fun cpu : Nat => isolated.list.cpuListContains_text cpu)
    (fun cpu : Nat => nohzFull.list.cpuListContains_text cpu) (List.range cpuCount) cpuZero 0
  have hcount : (if (cpuCount : Int) ≤ 0 ∨ (cpuSetSize : Int) < cpuCount then cpuSetSize
      else (cpuCount : Int).toNat) = cpuCount := by
    rw [if_neg (by omega), Int.toNat_natCast]
  have hfree : ∀ c, c ∈ (List.range cpuCount).filter (fun cpu : Nat =>
      !(decide (isolated.list.Contains cpu) || decide (nohzFull.list.Contains cpu))) ↔
      c < cpuCount ∧ ¬isolated.list.Contains c ∧ ¬nohzFull.list.Contains c := by
    intro c
    simp [List.mem_filter]
  simp only [makeHousekeepingCpuSet, CpuListFile.readCpuListFile_content, hcount, hselect,
    Option.bind_eq_bind, Option.bind_some, Nat.zero_add]
  generalize (List.range cpuCount).filter (fun cpu : Nat =>
    !(decide (isolated.list.Contains cpu) || decide (nohzFull.list.Contains cpu))) = free at hfree
  by_cases hnone : free = []
  · -- no CPU was selected, and the second loop sets every bit
    subst hnone
    have hall : ∀ c' : Nat, c' < cpuCount → isolated.list.Contains c' ∨
        nohzFull.list.Contains c' := by
      intro c' hc'
      by_contra hneither
      exact absurd ((hfree c').mpr ⟨hc', not_or.mp hneither⟩) List.not_mem_nil
    have htrue : decide (0 < cpuCount) = true := decide_eq_true hpos
    refine ⟨_, by rw [if_neg (by simp), htrue]; rfl, fun c => ?_⟩
    rw [foldl_cpuSet, List.mem_range]
    constructor
    · rintro (h | ⟨hc, -⟩)
      · cases h
      · exact ⟨hc, .inr hall⟩
    · rintro ⟨hc, -⟩
      exact .inr ⟨hc, lt_of_lt_of_le hc hsize⟩
  · have hlength : 0 < free.length := List.length_pos_of_ne_nil hnone
    obtain ⟨x, hx⟩ := List.exists_mem_of_ne_nil free hnone
    obtain ⟨hxlt, hxfree⟩ := (hfree x).mp hx
    refine ⟨_, by rw [if_pos hlength]; rfl, fun c => ?_⟩
    rw [foldl_cpuSet, hfree]
    constructor
    · rintro (h | ⟨⟨hc, hneither⟩, -⟩)
      · cases h
      · exact ⟨hc, .inl hneither⟩
    · rintro ⟨hc, hneither | hall⟩
      · exact .inr ⟨⟨hc, hneither⟩, lt_of_lt_of_le hc hsize⟩
      · exact absurd (hall x hxlt) (not_or.mpr hxfree)

/-- The number 2. -/
def Decimal.two : Decimal :=
  ⟨['2'], by decide, List.forall_mem_singleton.mpr (by decide), by decide⟩

/-- The number 3. -/
def Decimal.three : Decimal :=
  ⟨['3'], by decide, List.forall_mem_singleton.mpr (by decide), by decide⟩

/-- What the kernel prints for a mask it does not have. -/
def CpuList.null : CpuList := .placeholder " (null)".toList (by
  have hsplit : " (null)".toList.splitOn ',' = [" (null)".toList] := by decide
  intro part hpart c hc
  rw [hsplit, List.mem_singleton] at hpart
  subst hpart
  cases hc
  decide) (by decide)

/-- Four CPUs, of which 2 and 3 are isolated, and no `nohz_full` list. -/
theorem housekeeping_cpus_four :
    ∃ cpuset, makeHousekeepingCpuSet (some "2-3\n".toList)
      (some " (null)\n".toList) 4 = some (cpuset, true) ∧
      cpuset 1 = true ∧ cpuset 2 = false := by
  obtain ⟨-, cpuset, hmake, hset⟩ := housekeeping_cpus ⟨.items [.range .two .three], some []⟩
    ⟨.null, some []⟩ 4 (by decide) (by decide)
  refine ⟨cpuset, hmake, (hset 1).mpr ⟨by decide, .inl ⟨by decide, by decide⟩⟩, ?_⟩
  rw [Bool.eq_false_iff, Ne, hset 2]
  rintro ⟨-, ⟨hout, -⟩ | hall⟩
  · exact hout (by decide)
  · exact absurd (hall 1 (by decide)) (by decide)

end Revoq
