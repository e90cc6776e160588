import Revoq.JournalReader

/-! # Which journals `join` takes for the same

A journal's page files are found by `Locator::layoutDir`, a path under the locator's
home.  `join` and `disjoin` tell journals apart by `Location::uid`, a 32-bit hash of
category, group, name and mode.  This module has both, and the part of the reader
that goes by the second; it does what the first asks for as long as the two agree
about the locations in use.
-/
namespace Revoq
open StmtMachine

/-! ## `MurmurHash3_x86_32` -/

def rotl32 (x r : UInt32) : UInt32 := (x <<< r) ||| (x >>> (32 - r))

def fmix32 (h : UInt32) : UInt32 :=
  let h := (h ^^^ (h >>> 16)) * 0x85ebca6b
  let h := (h ^^^ (h >>> 13)) * 0xc2b2ae35
  h ^^^ (h >>> 16)

/-- What the hash does to a block before it is mixed in. -/
def scramble (k : UInt32) : UInt32 := rotl32 (k * 0xcc9e2d51) 15 * 0x1b873593

/-- The body and the tail of the hash: blocks of four bytes, and what is left. -/
def murmurBlocks : List UInt8 → UInt32 → UInt32
  | a :: b :: c :: d :: rest, h =>
      let k := a.toUInt32 ||| (b.toUInt32 <<< 8) ||| (c.toUInt32 <<< 16) ||| (d.toUInt32 <<< 24)
      murmurBlocks rest (rotl32 (h ^^^ scramble k) 13 * 5 + 0xe6546b64)
  | [a, b, c], h => h ^^^ scramble ((c.toUInt32 <<< 16) ^^^ (b.toUInt32 <<< 8) ^^^ a.toUInt32)
  | [a, b], h => h ^^^ scramble ((b.toUInt32 <<< 8) ^^^ a.toUInt32)
  | [a], h => h ^^^ scramble a.toUInt32
  | [], h => h

/-- `HashUtils::hashStr32`, with seed 0. -/
def hashStr32 (key : List UInt8) : UInt32 := fmix32 (murmurBlocks key 0 ^^^ UInt32.ofNat key.length)

/-! ## Locations -/

/-- The bytes of an ASCII text. -/
def ascii (s : String) : List UInt8 := s.toList.map fun c => UInt8.ofNat c.toNat

example : hashStr32 (ascii "") = 0 ∧ hashStr32 (ascii "test") = 0xba6bd213 := by decide

/-- `enum class Mode`. -/
inductive Mode where
  | unknown | live | replay
deriving DecidableEq

def categoryToStr : Category → List UInt8
  | .marketdata => ascii "marketdata"
  | .researchdata => ascii "researchdata"
  | .execution => ascii "executiondata"
  | .log => ascii "log"
  | .unknown | .system | .strategy => ascii "unknown"

def modeToStr : Mode → List UInt8
  | .live => ascii "live"
  | .replay => ascii "replay"
  | .unknown => ascii "unknown"

/-- `layoutToStr(Layout::JOURNAL)`. -/
def journalLayout : List UInt8 := ascii "journal"

def slash : UInt8 := 47

/-- The arguments of `Location::make`; of the locator only its home matters. -/
structure Place where
  mode : Mode
  category : Category
  group : List UInt8
  name : List UInt8
  home : List UInt8
deriving DecidableEq

/-- `operator/` of `std::filesystem::path`. -/
def pathAppend (p q : List UInt8) : List UInt8 :=
  if q.head? = some slash then q
  else if p = [] ∨ p.getLast? = some slash then p ++ q
  else p ++ slash :: q

/-- The elements of a path that does not end in a separator, by which paths are
compared: whether there is a root directory, and the names. -/
def pathElements (p : List UInt8) : Bool × List (List UInt8) :=
  (p.head? = some slash, (p.splitOn slash).filter fun x => x ≠ [])

namespace Place

/-- `Location::makeUname`. -/
def uname (l : Place) : List UInt8 :=
  categoryToStr l.category ++ slash :: (l.group ++ slash :: (l.name ++ slash :: modeToStr l.mode))

/-- `Location::uid`. -/
def uid (l : Place) : UInt32 := hashStr32 l.uname

/-- `Locator::layoutDir(location, Layout::JOURNAL)`. -/
def layoutDir (l : Place) : List UInt8 :=
  pathAppend
    (pathAppend (pathAppend (pathAppend (pathAppend l.home (categoryToStr l.category)) l.group)
    l.name) journalLayout) (modeToStr l.mode)

/-- Two locations have the same journal directory. -/
def SameDir (l l' : Place) : Prop := pathElements l.layoutDir = pathElements l'.layoutDir

instance (l l' : Place) : Decidable (SameDir l l') := inferInstanceAs (Decidable (_ = _))

/-- What a reader looks at of the location. -/
def location (l : Place) : Location := ⟨l.uid, l.category⟩

end Place

/-! ## The journals of a reader -/

/-- The journals of a reader and the keys it keeps of them. -/
structure JoinedJournals where
  journals : List (Place × UInt32) := []
  joinedKeys : Finset UInt64 := ∅

/-- Joins and disjoins, the latter by the `uid` of a location. -/
inductive JoinCall where
  | join (location : Place) (destId : UInt32)
  | disjoin (location : Place)
deriving DecidableEq

namespace JoinedJournals

/-- The key of a journal. -/
def key (x : Place × UInt32) : UInt64 := makeKey x.1.uid x.2

/-- `join`, when its page loads succeed, and `disjoin`. -/
def exec (b : JoinedJournals) : JoinCall → JoinedJournals
  | .join l destId =>
      if makeKey l.uid destId ∈ b.joinedKeys then b
      else ⟨b.journals ++ [(l, destId)], insert (makeKey l.uid destId) b.joinedKeys⟩
  | .disjoin l =>
      let journals := b.journals.filter fun x => x.1.uid ≠ l.uid
      if journals.length ≠ b.journals.length then ⟨journals, (journals.map key).toFinset⟩ else b

/-- The reader after some calls. -/
def after (calls : List JoinCall) : JoinedJournals := calls.foldl exec {}

/-- A call goes by where journals live: `join` adds a journal exactly if none of the
joined ones has the same page files, and `disjoin` removes only journals of the
directory. -/
def ByPlace (b : JoinedJournals) : JoinCall → Prop
  | .join l destId => (b.exec (.join l destId)).journals = b.journals ++ [(l, destId)] ↔
      ¬ ∃ x ∈ b.journals, x.2 = destId ∧ x.1.SameDir l
  | .disjoin l => ∀ x ∈ b.journals, x ∉ (b.exec (.disjoin l)).journals → x.1.SameDir l

/-- The location's `uid` names its directory among the joined journals. -/
def Distinguishes (b : JoinedJournals) : JoinCall → Prop
  | .join l destId => (∃ x ∈ b.journals, x.2 = destId ∧ x.1.uid = l.uid) ↔
      ∃ x ∈ b.journals, x.2 = destId ∧ x.1.SameDir l
  | .disjoin l => ∀ x ∈ b.journals, x.1.uid = l.uid → x.1.SameDir l

/-- The keys are those of the journals. -/
def Keyed (b : JoinedJournals) : Prop := b.joinedKeys = (b.journals.map key).toFinset

section
variable {b : JoinedJournals} {l : Place} {destId : UInt32}

theorem Keyed.mem_iff (h : b.Keyed) :
    makeKey l.uid destId ∈ b.joinedKeys ↔ ∃ x ∈ b.journals, x.2 = destId ∧ x.1.uid = l.uid := by
  rw [h, List.mem_toFinset, List.mem_map]
  constructor
  · rintro ⟨x, hx, hkey⟩
    obtain ⟨huid, hdest⟩ := makeKey_injective hkey
    exact ⟨x, hx, hdest, huid⟩
  · rintro ⟨x, hx, hdest, huid⟩
    exact ⟨x, hx, by rw [key, huid, hdest]⟩

/-- `disjoin` keeps the journals of other locations, whether or not it finds any to
remove. -/
theorem exec_disjoin_journals :
    (b.exec (.disjoin l)).journals = b.journals.filter fun x => x.1.uid ≠ l.uid := by
  rw [exec]
  split
  · rfl
  · rename_i hlen
    exact (List.filter_eq_self.mpr (List.length_filter_eq_length_iff.mp (not_not.mp hlen))).symm

theorem Keyed.exec (h : b.Keyed) (c : JoinCall) : (b.exec c).Keyed := by
  cases c with
  | join l destId =>
    rw [JoinedJournals.exec]
    split
    · exact h
    · show insert (makeKey l.uid destId) b.joinedKeys =
          ((b.journals ++ [(l, destId)]).map key).toFinset
      rw [Keyed] at h
      ext k
      rw [h, Finset.mem_insert, List.mem_toFinset, List.mem_toFinset, List.map_append,
        List.mem_append, List.map_singleton, List.mem_singleton, or_comm]
      rfl
  | disjoin l =>
    rw [JoinedJournals.exec]
    split
    · rfl
    · exact h

theorem keyed_after (calls : List JoinCall) : (after calls).Keyed := by
  suffices h : ∀ b : JoinedJournals, b.Keyed → (calls.foldl exec b).Keyed from h {} rfl
  induction calls with
  | nil => exact fun _ h => h
  | cons c calls ih => exact fun b h => ih _ (h.exec c)

/-- **One call** goes by where journals live exactly if the `uid` names the directory. -/
theorem Keyed.byPlace_iff (h : b.Keyed) (c : JoinCall) : b.ByPlace c ↔ b.Distinguishes c := by
  cases c with
  | join l destId =>
    have hadds : (b.exec (.join l destId)).journals = b.journals ++ [(l, destId)] ↔
        ¬ ∃ x ∈ b.journals, x.2 = destId ∧ x.1.uid = l.uid := by
      rw [← h.mem_iff, JoinedJournals.exec]
      split
      · rename_i hmem
        simp [hmem]
      · rename_i hmem
        simp [hmem]
    rw [ByPlace, Distinguishes, hadds]
    exact not_iff_not
  | disjoin l =>
    have hgone : ∀ x ∈ b.journals, x ∉ (b.exec (.disjoin l)).journals ↔ x.1.uid = l.uid := by
      intro x hx
      rw [exec_disjoin_journals, List.mem_filter]
      simp [hx]
    constructor
    · exact fun hby x hx huid => hby x hx ((hgone x hx).mpr huid)
    · exact fun hdis x hx hout => hdis x hx ((hgone x hx).mp hout)

end

/-! ## The reader's own lists -/

/-- The reader has joined these journals. -/
structure Tracks (r : JournalReader) (b : JoinedJournals) : Prop where
  journals : r.journals.map (fun j => (j.location.uid, j.destId)) =
    b.journals.map fun x => (x.1.uid, x.2)
  keys : r.joinedKeys = b.joinedKeys

/-- **`join` of the reader** is the one here, as long as its page loads succeed. -/
theorem Tracks.join {r r' : JournalReader} {b : JoinedJournals} (h : Tracks r b)
    {fuel : Nat} {l : Place} {destId : UInt32} {fromTime : Int64} {files files' : Files}
    (hj : JournalReader.join fuel l.location destId fromTime (files, r) = .returns (files', r')) :
    Tracks r' (b.exec (.join l destId)) := by
  rw [JournalReader.join, h.keys] at hj
  rw [exec]
  split at hj
  · rename_i hmem
    cases hj
    rw [if_pos (show makeKey l.uid destId ∈ b.joinedKeys from hmem)]
    exact h
  · rename_i hmem
    rw [if_neg (show makeKey l.uid destId ∉ b.joinedKeys from hmem)]
    simp only at hj
    split at hj
    · cases hj
    · cases hj
      constructor
      · simp [h.journals, Place.location]
      · simp [Place.location]

theorem Tracks.disjoin {r : JournalReader} {b : JoinedJournals} (h : Tracks r b) (l : Place) :
    Tracks (r.disjoin l.uid) (b.exec (.disjoin l)) := by
  have hfilter : (r.journals.filter fun j => j.location.uid ≠ l.uid).map
      (fun j => (j.location.uid, j.destId)) =
      (b.journals.filter fun x => x.1.uid ≠ l.uid).map fun x => (x.1.uid, x.2) := by
    have hmap := congrArg (List.filter fun y => y.1 ≠ l.uid) h.journals
    rwa [List.filter_map, List.filter_map] at hmap
  have hlen : (r.journals.filter fun j => j.location.uid ≠ l.uid).length =
      (b.journals.filter fun x => x.1.uid ≠ l.uid).length := by
    simpa using congrArg List.length hfilter
  have hall : r.journals.length = b.journals.length := by
    simpa using congrArg List.length h.journals
  rw [JournalReader.disjoin, exec, hlen, hall]
  split
  · constructor
    · simpa using hfilter
    · have hkeys := congrArg (List.map fun y => makeKey y.1 y.2) hfilter
      rw [List.map_map, List.map_map] at hkeys
      rw [JournalReader.refreshSingleJournal_joinedKeys]
      exact congrArg List.toFinset hkeys
  · exact h

end JoinedJournals

/-! ## When the `uid` names the directory -/

/-- A path element of its own. -/
structure IsName (x : List UInt8) : Prop where
  nonempty : x ≠ []
  plain : slash ∉ x

instance (x : List UInt8) : Decidable (IsName x) :=
  decidable_of_iff (x ≠ [] ∧ slash ∉ x) ⟨fun ⟨h1, h2⟩ => ⟨h1, h2⟩, fun h => ⟨h.1, h.2⟩⟩

theorem isName_categoryToStr (c : Category) : IsName (categoryToStr c) := by cases c <;> decide

theorem isName_modeToStr (m : Mode) : IsName (modeToStr m) := by cases m <;> decide

section
variable {p x : List UInt8} {l l' : Place}

/-- Appending a name to a path adds one element. -/
theorem pathElements_append (hx : IsName x) :
    pathElements (pathAppend p x) = ((pathElements p).1, (pathElements p).2 ++ [x]) := by
  have hhead : x.head? ≠ some slash := fun h => hx.plain (List.mem_of_head? h)
  have hsplit : x.splitOn slash = [x] := List.splitOn_eq_singleton hx.plain
  have hkeep : ([x].filter fun y => y ≠ []) = [x] := by simp [hx.nonempty]
  rw [pathAppend, if_neg hhead]
  split
  · rename_i hend
    rcases hend with rfl | hlast
    · simp [pathElements, hhead, hsplit, hx.nonempty]
    · -- the path ends in a separator
      obtain ⟨q, rfl⟩ := List.getLast?_eq_some_iff.mp hlast
      have h1 : (q ++ [slash] ++ x).splitOn slash = q.splitOn slash ++ [x] := by
        rw [List.append_assoc, List.singleton_append, List.splitOn_append_cons_self, hsplit]
      have h2 : (q ++ [slash]).splitOn slash = q.splitOn slash ++ [[]] := by
        rw [List.splitOn_append_cons_self, List.splitOn_nil]
      rw [pathElements, pathElements, h1, h2, List.filter_append, List.filter_append, hkeep]
      cases q <;> simp
  · rename_i hend
    rw [pathElements, pathElements, List.splitOn_append_cons_self, hsplit,
      List.filter_append, hkeep]
    cases p with
    | nil => exact absurd (Or.inl rfl) hend
    | cons a p => simp

/-- Group and name are path elements. -/
structure Place.Plain (l : Place) : Prop where
  group : IsName l.group
  name : IsName l.name

theorem Place.Plain.elements (h : l.Plain) : pathElements l.layoutDir =
    ((pathElements l.home).1, (pathElements l.home).2 ++
      [categoryToStr l.category, l.group, l.name, journalLayout, modeToStr l.mode]) := by
  rw [Place.layoutDir, pathElements_append (isName_modeToStr _),
    pathElements_append (show IsName journalLayout by decide), pathElements_append h.name,
    pathElements_append h.group, pathElements_append (isName_categoryToStr _)]
  simp

theorem Place.Plain.splitOn_uname (h : l.Plain) :
    l.uname.splitOn slash = [categoryToStr l.category, l.group, l.name, modeToStr l.mode] := by
  rw [Place.uname, List.splitOn_append_cons_self, List.splitOn_append_cons_self,
    List.splitOn_append_cons_self, List.splitOn_eq_singleton (isName_categoryToStr _).plain,
    List.splitOn_eq_singleton h.group.plain, List.splitOn_eq_singleton h.name.plain,
    List.splitOn_eq_singleton (isName_modeToStr _).plain]
  rfl

/-- **Directories and `uname`s**: with plain names, a directory is a home and a `uname`. -/
theorem Place.Plain.sameDir_iff (h : l.Plain) (h' : l'.Plain) :
    l.SameDir l' ↔ pathElements l.home = pathElements l'.home ∧ l.uname = l'.uname := by
  rw [Place.SameDir, h.elements, h'.elements]
  constructor
  · intro heq
    obtain ⟨hroot, hnames⟩ := Prod.mk.inj heq
    obtain ⟨hhome, hrest⟩ := List.append_inj' hnames rfl
    simp only [List.cons.injEq, and_true, true_and] at hrest
    obtain ⟨hcat, hgroup, hname, hmode⟩ := hrest
    exact ⟨Prod.ext hroot hhome, by rw [Place.uname, Place.uname, hcat, hgroup, hname, hmode]⟩
  · rintro ⟨hhome, huname⟩
    have hsplit := congrArg (List.splitOn slash) huname
    rw [h.splitOn_uname, h'.splitOn_uname] at hsplit
    simp only [List.cons.injEq, and_true] at hsplit
    obtain ⟨hcat, hgroup, hname, hmode⟩ := hsplit
    rw [hhome, hcat, hgroup, hname, hmode]

/-- **What can go wrong between two plain locations** is that they have the same `uid`
under different homes, or by a collision of the hash. -/
theorem Place.Plain.uid_iff_sameDir (h : l.Plain) (h' : l'.Plain) :
    (l.uid = l'.uid ↔ l.SameDir l') ↔
    (l.uid = l'.uid → pathElements l.home = pathElements l'.home ∧ l.uname = l'.uname) := by
  rw [h.sameDir_iff h']
  constructor
  · exact fun hiff => hiff.mp
  · exact fun himp => ⟨himp, fun hsame => congrArg hashStr32 hsame.2⟩

end

/-- **Joining by where journals live.**  All along any joins and disjoins, `join` adds a
journal exactly if none of the joined ones has its page files and `disjoin` removes
only journals of its directory, exactly if at each call the location's `uid` names its
directory among the joined journals. -/
theorem join_by_place (calls : List JoinCall) :
    (∀ before c later, calls = before ++ c :: later → (JoinedJournals.after before).ByPlace c) ↔
      ∀ before c later, calls = before ++ c :: later →
        (JoinedJournals.after before).Distinguishes c := by
  constructor
  · intro h before c later heq
    exact ((JoinedJournals.keyed_after before).byPlace_iff c).mp (h before c later heq)
  · intro h before c later heq
    exact ((JoinedJournals.keyed_after before).byPlace_iff c).mpr (h before c later heq)

/-- A venue's trades, recorded under some home. -/
def tradesAt (home : List UInt8) : Place :=
  ⟨.live, .marketdata, ascii "venue", ascii "trades", home⟩

theorem tradesAt_plain (home : List UInt8) : (tradesAt home).Plain :=
  ⟨show IsName (ascii "venue") by decide, show IsName (ascii "trades") by decide⟩

/-- The home is not part of the `uid`. -/
theorem tradesAt_uid (home home' : List UInt8) : (tradesAt home).uid = (tradesAt home').uid := rfl

/-- A journal under another home is in another directory, and taken for the same. -/
theorem tradesAt_refused {home home' : List UInt8} (h : pathElements home ≠ pathElements home') :
    ¬ (JoinedJournals.after [.join (tradesAt home) 0]).ByPlace (.join (tradesAt home') 0) := by
  have hjournals : (JoinedJournals.after [.join (tradesAt home) 0]).journals =
      [(tradesAt home, 0)] := by
    simp [JoinedJournals.after, JoinedJournals.exec]
  rw [(JoinedJournals.keyed_after _).byPlace_iff]
  intro hdis
  obtain ⟨x, hx, -, hdir⟩ :=
    hdis.mp ⟨(tradesAt home, 0), by rw [hjournals]; exact List.mem_singleton_self _, rfl,
      tradesAt_uid home home'⟩
  rw [hjournals] at hx
  obtain rfl := List.mem_singleton.mp hx
  exact h (((tradesAt_plain home).sameDir_iff (tradesAt_plain home')).mp hdir).1

/-- The second of two journals in different directories is refused. -/
theorem join_refuses_other_home :
    ¬ (JoinedJournals.after [.join (tradesAt (ascii "/a")) 0]).ByPlace
      (.join (tradesAt (ascii "/b")) 0) :=
  tradesAt_refused (by decide)

end Revoq
