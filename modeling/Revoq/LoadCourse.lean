import Revoq.PageLoad

/-! # The course of a load

What a thread that loads a page knows of it by the statements it has left, whatever others
do to the directory meanwhile.  A load goes through the parts of `LoadPart`, whoever makes
it: a reader, the constructor of a writer that looks for earlier pages, or a writer that
gets its next page.

Some pages are taken: they exist and have a header.  A load that did not know so when it
looked for the file, or at the header, is the only one that stores to them.
-/
namespace Revoq
open ByteImage StmtMachine

/-- Where a load is, by its next statement. -/
inductive LoadPart where
  /-- Nothing is done yet. -/
  | fresh
  /-- `stat` has looked for the file. -/
  | found
  /-- The file is open, and not filled. -/
  | opened
  /-- A new file is filled with zeros. -/
  | filled
  /-- The header is being initialised. -/
  | puts
  /-- There is a header, which is checked next. -/
  | ready
  /-- The header has passed the checks. -/
  | done
deriving DecidableEq

/-- The part a statement of a load leads to. -/
def LoadPart.after : LoadPart → LoadStmt → Option LoadPart
  | .fresh, .stat => some .found
  | .found, .open _ => some .opened
  | .opened, .allocate _ | .opened, .map _ => some .opened
  | .opened, .populate => some .filled
  | .filled, .checkNew => some .ready
  | .puts, .put offset width value =>
      if offset = 16 ∧ width = 8 ∧ value = 64 then some .ready else some .puts
  | .ready, .validate => some .done
  | _, _ => none

/-- The statements are those of a load from this part on. -/
def loads : LoadPart → List LoadStmt → Bool
  | part, [] => decide (part = .done)
  | part, a :: code =>
      match part.after a with
      | some part' => loads part' code
      | none => false

/-- What a load knows of its page.  A load that did not find the file zero-fills it later,
unless `prefault` is off, and that must not be a page that is taken. -/
def LoadPart.Knows (taken : List Nat) (d : Disk) (r : LoadRegs) : LoadPart → Prop
  | .fresh | .ready | .done => True
  | .found => r.page ∈ taken → r.prefault = true → r.fileExists = true
  | .opened => (d.size r.page).isSome ∧ (r.page ∈ taken → r.prefault = true → r.fileExists = true)
  | .filled => (d.size r.page).isSome
  | .puts => (d.size r.page).isSome ∧ (r.page ∈ taken → r.master = false)

/-- A load with these statements left. -/
def OnLoad (taken : List Nat) (d : Disk) (r : LoadRegs) (code : List LoadStmt) : Prop :=
  ∃ part, loads part code = true ∧ part.Knows taken d r

/-- A taken page exists and has a header. -/
def Secure (taken : List Nat) (d : Disk) : Prop :=
  ∀ p ∈ taken, p ≠ 0 ∧ (d.size p).isSome ∧ lastFramePosition (d.image p) ≠ 0

/-- What a statement of a load does to the directory: taken pages stay as they are. -/
structure LoadStep (P : PageSize) (taken : List Nat) (d : Disk) (r : LoadRegs) (part : LoadPart)
    (d' : Disk) (r' : LoadRegs) (push : List LoadStmt) : Prop where
  page : r'.page = r.page
  images : ∀ p ∈ taken, d'.image p = d.image p
  sizes : ∀ q, (d.size q).isSome → (d'.size q).isSome
  goes : push = [] ∧ part.Knows taken d' r' ∧
      (part = .ready → (d'.size r.page).isSome ∧ lastFramePosition (d'.image r.page) ≠ 0) ∧
      (part = .done → firstFrameAddress (d'.image r.page) = pageHeaderSize) ∨
    push = Page.initHeader P ∧ part = .ready ∧ LoadPart.puts.Knows taken d' r'

section
variable {P : PageSize} {taken : List Nat} {d d' : Disk} {r r' : LoadRegs} {a : LoadStmt}
  {part part' : LoadPart} {code push : List LoadStmt}

theorem loads_loadCode (env : LoadEnv) : loads .fresh (Page.loadCode env) = true := rfl

theorem initHeader_loads (P : PageSize) (code : List LoadStmt) :
    loads .puts (Page.initHeader P ++ code) = loads .ready code := by
  simp [Page.initHeader, loads, LoadPart.after, PageField.version, PageField.pageHeaderLength,
    PageField.pageSize, PageField.frameHeaderLength, PageField.lastFramePosition, pageHeaderSize]

/-- Others may do what they like with the file, except delete it. -/
theorem LoadPart.Knows.mono (h : part.Knows taken d r)
    (hs : (d.size r.page).isSome → (d'.size r.page).isSome) :
    part.Knows taken d' r := by
  cases part with
  | fresh | found | ready | done => exact h
  | opened | puts => exact ⟨hs h.1, h.2⟩
  | filled => exact hs h

theorem LoadStep.of_same (hpage : r'.page = r.page) (hknows : part.Knows taken d r')
    (hready : part = .ready → (d.size r.page).isSome ∧ lastFramePosition (d.image r.page) ≠ 0)
    (hdone : part = .done → firstFrameAddress (d.image r.page) = pageHeaderSize) :
    LoadStep P taken d r part d r' [] :=
  ⟨hpage, fun _ _ => rfl, fun _ h => h, .inl ⟨rfl, hknows, hready, hdone⟩⟩

/-- A store to a page that is not taken. -/
theorem LoadStep.write {o k v : Nat} (hfree : r.page ∉ taken) (hsome : (d.size r.page).isSome)
    (hpart : part = .filled ∨ part = .puts ∨ part = .ready ∧ o = 16 ∧ k = 8 ∧ v = 64) :
    LoadStep P taken d r part (d.write r.page o k v) r [] := by
  refine ⟨rfl, fun p hp => d.write_image_of_ne o k v fun h => hfree (h ▸ hp), fun _ h => h,
    .inl ⟨rfl, ?_, ?_, ?_⟩⟩
  · rcases hpart with rfl | rfl | ⟨rfl, -⟩
    · exact hsome
    · exact ⟨hsome, fun h => absurd h hfree⟩
    · trivial
  · rintro rfl
    rcases hpart with h | h | ⟨-, rfl, rfl, rfl⟩
    · cases h
    · cases h
    · refine ⟨hsome, ?_⟩
      rw [Disk.write_image_self]
      have hself : lastFramePosition (store (d.image r.page) 16 8 64) = 64 :=
        load_store_self_of_lt (by decide)
      omega
  · rintro rfl
    rcases hpart with h | h | ⟨h, -⟩ <;> cases h

theorem LoadStmt.exec_throw {s s' : Disk × LoadRegs} (h : a.exec P s = .throw s') : s' = s := by
  cases a <;> simp only [LoadStmt.exec] at h <;> (repeat' split at h) <;> cases h <;> rfl

theorem LoadStmt.exec_fault {s s' : Disk × LoadRegs} (h : a.exec P s = .fault s') : s' = s := by
  cases a <;> simp only [LoadStmt.exec] at h <;> (repeat' split at h) <;> cases h <;> rfl

/-- No statement of a load shrinks a file. -/
theorem LoadStmt.exec_grows (he : a.exec P (d, r) = .next (d', r') push) {q n : Nat}
    (hq : d.size q = some n) :
    ∃ n', n ≤ n' ∧ d'.size q = some n' := by
  have hsame : ∃ n', n ≤ n' ∧ d.size q = some n' := ⟨n, Nat.le_refl n, hq⟩
  cases a with
  | «open» fails =>
    simp only [LoadStmt.exec] at he
    split at he <;> cases he
    by_cases hqp : q = r.page
    · subst hqp
      rw [Disk.create_of_isSome (by rw [hq]; rfl)]
      exact hsame
    · rw [d.create_size_of_ne hqp]
      exact hsame
  | allocate fails =>
    simp only [LoadStmt.exec] at he
    (repeat' split at he) <;> cases he
    · by_cases hqp : q = r.page
      · subst hqp
        rw [Disk.allocate_size_self, hq]
        exact ⟨_, Nat.le_max_right .., rfl⟩
      · rw [d.allocate_size_of_ne P.bytes hqp]
        exact hsame
    · exact hsame
  | _ =>
    simp only [LoadStmt.exec] at he
    (try split at he) <;> cases he <;> exact hsame

/-- A load works on its own page, and keeps it open. -/
theorem LoadStmt.exec_elsewhere (he : a.exec P (d, r) = .next (d', r') push) :
    r'.page = r.page ∧ (r.opened = true → r'.opened = true) ∧ ∀ q, q ≠ r.page →
      d.SameFile d' q := by
  have hsame : r.page = r.page ∧ (r.opened = true → r.opened = true) ∧ ∀ q, q ≠ r.page →
      d.SameFile d q :=
    ⟨rfl, id, fun q _ => .refl d q⟩
  have hwrite : ∀ o k v q, q ≠ r.page → d.SameFile (d.write r.page o k v) q := fun o k v q hq =>
    ⟨rfl, d.write_image_of_ne o k v hq⟩
  cases a with
  | stat =>
    cases he
    exact ⟨rfl, id, fun q _ => .refl d q⟩
  | «open» fails =>
    simp only [LoadStmt.exec] at he
    split at he <;> cases he
    exact ⟨rfl, fun _ => rfl, fun q hq => ⟨d.create_size_of_ne hq, d.create_image_of_ne hq⟩⟩
  | allocate fails =>
    simp only [LoadStmt.exec] at he
    (repeat' split at he) <;> cases he
    · exact ⟨rfl, id, fun q hq => ⟨d.allocate_size_of_ne P.bytes hq, rfl⟩⟩
    · exact hsame
  | populate =>
    simp only [LoadStmt.exec] at he
    split at he <;> cases he
    · exact ⟨rfl, id, hwrite _ _ _⟩
    · exact hsame
  | put offset width value =>
    simp only [LoadStmt.exec] at he
    split at he <;> cases he
    exact ⟨rfl, id, hwrite _ _ _⟩
  | map fails | checkNew | validate =>
    simp only [LoadStmt.exec] at he
    split at he <;> cases he
    exact hsame

theorem LoadStmt.exec_sizes (he : a.exec P (d, r) = .next (d', r') push) (q : Nat)
    (hq : (d.size q).isSome) :
    (d'.size q).isSome := by
  obtain ⟨n, hn⟩ := Option.isSome_iff_exists.mp hq
  obtain ⟨n', -, hn'⟩ := LoadStmt.exec_grows he hn
  rw [hn']
  rfl

/-- **One statement of a load.** -/
theorem LoadStmt.exec_course (hs : Secure taken d) (hafter : part.after a = some part')
    (hk : part.Knows taken d r) (he : a.exec P (d, r) = .next (d', r') push) :
    LoadStep P taken d r part' d' r' push := by
  cases a with
  | stat =>
    cases part <;> cases hafter
    cases he
    exact .of_same rfl (fun hp _ => (hs _ hp).2.1) (fun h => by cases h) (fun h => by cases h)
  | «open» fails =>
    cases part <;> cases hafter
    have hsizes := LoadStmt.exec_sizes he
    simp only [LoadStmt.exec] at he
    split at he <;> cases he
    refine ⟨rfl, ?_, hsizes,
      .inl ⟨rfl, ⟨d.create_isSome _, hk⟩, fun h => (by cases h), fun h => (by cases h)⟩⟩
    intro p hp
    by_cases hpr : p = r.page
    · subst hpr
      rw [Disk.create_of_isSome (hs _ hp).2.1]
    · exact d.create_image_of_ne hpr
  | allocate fails =>
    cases part <;> cases hafter
    have hsizes := LoadStmt.exec_sizes he
    simp only [LoadStmt.exec] at he
    (repeat' split at he) <;> cases he
    · exact ⟨rfl, fun _ _ => rfl, hsizes,
        .inl ⟨rfl, ⟨hsizes _ hk.1, hk.2⟩, fun h => (by cases h), fun h => (by cases h)⟩⟩
    · exact .of_same rfl hk (fun h => by cases h) (fun h => by cases h)
  | map fails =>
    cases part <;> cases hafter
    simp only [LoadStmt.exec] at he
    split at he <;> cases he
    exact .of_same rfl hk (fun h => by cases h) (fun h => by cases h)
  -- a taken page is there when `stat` looks, so it is not zeroed
  | populate =>
    cases part <;> cases hafter
    simp only [LoadStmt.exec] at he
    split at he <;> cases he
    · rename_i hfill
      rw [Bool.and_eq_true, Bool.not_eq_true'] at hfill
      refine .write (fun hp => ?_) hk.1 (.inl rfl)
      rw [hk.2 hp hfill.1] at hfill
      cases hfill.2
    · exact .of_same rfl hk.1 (fun h => by cases h) (fun h => by cases h)
  -- a taken page has its header
  | checkNew =>
    cases part <;> cases hafter
    simp only [LoadStmt.exec] at he
    split at he <;> cases he
    split
    · rename_i hnew
      exact ⟨rfl, fun _ _ => rfl, fun _ h =>
        h, .inr ⟨rfl, rfl, hk, fun hp => absurd hnew (hs _ hp).2.2⟩⟩
    · rename_i hlast
      exact .of_same rfl trivial (fun _ => ⟨hk, hlast⟩) (fun h => by cases h)
  -- the stores of a header go to a page that is not taken
  | put offset width value =>
    cases part <;> simp only [LoadPart.after] at hafter <;> try cases hafter
    simp only [LoadStmt.exec] at he
    split at he <;> cases he
    rename_i hmaster
    have hfree : r.page ∉ taken := fun hp => by rw [hk.2 hp] at hmaster; cases hmaster
    refine .write hfree hk.1 ?_
    split at hafter <;> cases hafter
    · exact .inr (.inr ⟨rfl, ‹_›⟩)
    · exact .inr (.inl rfl)
  | validate =>
    cases part <;> cases hafter
    simp only [LoadStmt.exec] at he
    split at he <;> cases he
    exact .of_same rfl trivial (fun h => by cases h) fun _ => firstFrameAddress_of_valid ‹_›

theorem loads_cons (h : loads part (a :: code) = true) :
    ∃ part', part.after a = some part' ∧ loads part' code = true := by
  simp only [loads] at h
  split at h
  · exact ⟨_, ‹_›, h⟩
  · cases h

/-! ## Pages that get taken while a load is under way -/

/-- The statement stores to the header. -/
def LoadStmt.isPut : LoadStmt → Bool
  | .put .. => true
  | _ => false

theorem LoadPart.after_ne_fresh (h : part.after a = some part') :
    part' ≠ .fresh ∧ (part ≠ .fresh → a ≠ .stat) := by
  cases part <;> cases a <;> simp only [LoadPart.after] at h <;> (try split at h) <;>
    cases h <;> simp

theorem stat_notMem_of_loads (h : loads part code = true) (hpart : part ≠ .fresh) :
    .stat ∉ code := by
  induction code generalizing part with
  | nil => exact List.not_mem_nil
  | cons a code ih =>
    obtain ⟨part', hafter, hl⟩ := loads_cons h
    obtain ⟨hne, hstat⟩ := LoadPart.after_ne_fresh hafter
    rw [List.mem_cons, not_or]
    exact ⟨(hstat hpart).symm, ih hl hne⟩

theorem populate_mem_of_loads (h : loads part code = true)
    (hpart : part = .found ∨ part = .opened) :
    .populate ∈ code := by
  induction code generalizing part with
  | nil =>
    obtain rfl := of_decide_eq_true h
    rcases hpart with h | h <;> cases h
  | cons a code ih =>
    obtain ⟨part', hafter, hl⟩ := loads_cons h
    rcases hpart with rfl | rfl
    · cases a <;> cases hafter
      exact List.mem_cons_of_mem _ (ih hl (.inr rfl))
    · cases a with
      | populate => exact List.mem_cons_self
      | allocate fails | map fails =>
        cases hafter
        exact List.mem_cons_of_mem _ (ih hl (.inr rfl))
      | _ => cases hafter

theorem any_isPut_of_loads (h : loads .puts code = true) : code.any LoadStmt.isPut = true := by
  cases code with
  | nil => cases h
  | cons a code =>
    cases a with
    | put offset width value => rfl
    | _ => cases h

/-- The load stores to its page when it goes on: it maps the page writable, and it did not find the
file and has not zero-filled it yet, or it found no header and has header stores left. -/
def overtaken (r : LoadRegs) (code : List LoadStmt) : Bool :=
  r.prefault && (!r.fileExists && code.contains .populate && !code.contains .stat ||
    code.any LoadStmt.isPut)

theorem OnLoad.nil : OnLoad taken d r [] := ⟨.done, rfl, trivial⟩

theorem OnLoad.start (env : LoadEnv) : OnLoad taken d r (Page.loadCode env) :=
  ⟨.fresh, loads_loadCode env, trivial⟩

theorem OnLoad.mono (h : OnLoad taken d r code)
    (hs : (d.size r.page).isSome → (d'.size r.page).isSome) :
    OnLoad taken d' r code := by
  obtain ⟨part, hl, hk⟩ := h
  exact ⟨part, hl, hk.mono hs⟩

/-- **A load leaves the taken pages alone**, and goes on. -/
theorem OnLoad.step (hs : Secure taken d) (h : OnLoad taken d r (a :: code))
    (he : a.exec P (d, r) = .next (d', r') push) :
    (∀ p ∈ taken, d'.image p = d.image p) ∧ (∀ q, (d.size q).isSome → (d'.size q).isSome) ∧
      OnLoad taken d' r' (push ++ code) := by
  obtain ⟨part, hl, hk⟩ := h
  obtain ⟨part', hafter, hl'⟩ := loads_cons hl
  have hstep := LoadStmt.exec_course hs hafter hk he
  refine ⟨hstep.images, hstep.sizes, ?_⟩
  rcases hstep.goes with ⟨rfl, hknows, -, -⟩ | ⟨rfl, rfl, hknows⟩
  · exact ⟨part', hl', hknows⟩
  · exact ⟨.puts, by rw [initHeader_loads]; exact hl', hknows⟩

/-- **A load goes on as before when its page gets taken**, if it is not overtaken by that. -/
theorem OnLoad.take {taken' : List Nat} (h : OnLoad taken d r code) (hw : r.isWriting = false)
    (hfree : r.page ∈ taken' → r.page ∉ taken → overtaken r code = false) :
    OnLoad taken' d r code := by
  obtain ⟨part, hl, hk⟩ := h
  -- a load that has looked for the file and has the zero-fill ahead has found it
  have hfound : part = .found ∨ part = .opened → overtaken r code = false → r.prefault = true →
      r.fileExists = true := by
    intro hpart hno hpre
    have hpop : code.contains .populate = true :=
      List.contains_iff_mem.mpr (populate_mem_of_loads hl hpart)
    have hstat : code.contains .stat = false := by
      refine Bool.eq_false_iff.mpr fun hc =>
        stat_notMem_of_loads hl ?_ (List.contains_iff_mem.mp hc)
      rintro rfl
      rcases hpart with h | h <;> cases h
    rw [overtaken, hpre, hpop, hstat] at hno
    cases hfile : r.fileExists with
    | true => rfl
    | false => rw [hfile] at hno; cases hno
  refine ⟨part, hl, ?_⟩
  cases part with
  | fresh | ready | done => trivial
  | found =>
    intro hmem hpre
    by_cases hold : r.page ∈ taken
    · exact hk hold hpre
    · exact hfound (.inl rfl) (hfree hmem hold) hpre
  | opened =>
    refine ⟨hk.1, fun hmem hpre => ?_⟩
    by_cases hold : r.page ∈ taken
    · exact hk.2 hold hpre
    · exact hfound (.inr rfl) (hfree hmem hold) hpre
  | filled => exact hk
  | puts =>
    refine ⟨hk.1, fun hmem => ?_⟩
    by_cases hold : r.page ∈ taken
    · exact hk.2 hold
    · have hno := hfree hmem hold
      rw [overtaken, any_isPut_of_loads hl, Bool.or_true, Bool.and_true] at hno
      rw [LoadRegs.master, hw, hno]
      rfl

end

end Revoq
