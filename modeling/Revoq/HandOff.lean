import Revoq.Custody
import Revoq.ReaderWarmer

/-! # Hand-off of warmed pages

Raw addresses pass from the warmer to `warmer_addr_`, from there to a `Page`, and with
it from thread to thread until they are released.  At every step the account of the
mappings is kept: each is in one place, or was released once.

A step of the warmer is one of four things (`WarmerEffect`); the steps of the owner and
of the retire thread mostly pass pages around (`Inv.repage`).
-/
namespace Revoq.HandOff
open Custody

/-! ## Who holds a mapping -/

/-- The page in the owner's hands. -/
def Owner.page : Owner → Option Page
  | .install _ page | .handOver _ page => some page
  | _ => none

/-- The page in the retire thread's hands. -/
def Retire.page : Retire → Option Page
  | .reset page => some page
  | _ => none

/-- The warmer's `addr`, with the page it was asked for. -/
def Warmer.addr : Warmer → Option (Int × Mapping)
  | .pollCheck p addr _ | .poll p addr _ | .prepare p addr | .publish p addr | .release p addr =>
      some (p, addr)
  | _ => none

/-- Every `Page` there is. -/
def State.pages (s : State) : List Page :=
  s.owner.page.toList ++ s.currentPage.toList ++ s.retiredPages ++ s.retireQueue ++
    s.retire.page.toList

/-- **Every place a mapping is held in**: the warmer's local address, `warmer_addr_`, and
the pages. -/
def State.held (s : State) : List Mapping :=
  (s.warmer.addr.map Prod.snd).toList ++ s.warmerAddr.toList ++ s.pages.filterMap Page.warmed

/-- The mappings that were released, once for each call. -/
def State.back (s : State) : List Mapping := s.released.map Release.mapping

/-- What the destructor has achieved where it stands. -/
def State.Closed (s : State) : Prop :=
  match s.owner with
  | .wake | .joinRetire => s.currentPage = none ∧ s.retiredPages = []
  | .joinWarmer => (s.currentPage = none ∧ s.retiredPages = []) ∧ s.retire = .exited
  | .releaseWarmed =>
      ((s.currentPage = none ∧ s.retiredPages = []) ∧ s.retire = .exited) ∧ s.warmer = .exited
  | .members =>
      (((s.currentPage = none ∧ s.retiredPages = []) ∧ s.retire = .exited) ∧ s.warmer = .exited) ∧
        s.warmerAddr = none
  | .gone =>
      ((((s.currentPage = none ∧ s.retiredPages = []) ∧ s.retire = .exited) ∧ s.warmer = .exited) ∧
        s.warmerAddr = none) ∧ s.retireQueue = []
  | _ => True

/-- A page that was adopted is mapped from its own file, and a size is the page size or
one that was read from a header. -/
structure PageOk (o : Options) (headerSizes : List Nat) (page : Page) : Prop where
  file : ∀ m, page.warmed = some m → m.file = page.pageId
  size : page.size = o.pageSize ∨ page.size ∈ headerSizes

/-- **The invariant.** -/
structure Inv (o : Options) (s : State) : Prop where
  account : Account s.mapped s.held s.back
  serials : ∀ m ∈ s.mapped, m.serial < s.mapped.length
  localFile : ∀ p m, s.warmer.addr = some (p, m) → m.file = p
  readyFile : ∀ m, s.warmerAddr = some m → m.file = s.warmerReadyId
  pages : ∀ page ∈ s.pages, PageOk o s.headerSizes page
  sizes : ∀ r ∈ s.released, r.size = o.pageSize ∨ r.size ∈ s.headerSizes
  closed : s.Closed

section
variable {o : Options} {s s' : State}

/-- The mappings of some pages. -/
def warmedOf (pages : List Page) : List Mapping := pages.filterMap Page.warmed

@[simp] theorem count_warmedOf_nil (r : Mapping) : (warmedOf []).count r = 0 := rfl

@[simp] theorem count_warmedOf_cons (page : Page) (pages : List Page) (r : Mapping) :
    (warmedOf (page :: pages)).count r = page.warmed.toList.count r + (warmedOf pages).count r := by
  cases hw : page.warmed with
  | none => simp [warmedOf, hw]
  | some m => simp [warmedOf, hw, List.count_cons, Nat.add_comm]

@[simp] theorem count_warmedOf_append (pages pages' : List Page) (r : Mapping) :
    (warmedOf (pages ++ pages')).count r = (warmedOf pages).count r +
    (warmedOf pages').count r := by
  rw [warmedOf, List.filterMap_append, List.count_append, warmedOf, warmedOf]

theorem State.mem_pages {page : Page} : page ∈ s.pages ↔ s.owner.page = some page ∨
    s.currentPage = some page ∨ page ∈ s.retiredPages ∨ page ∈ s.retireQueue ∨
    s.retire.page = some page := by
  simp [State.pages]

theorem State.count_held (s : State) (r : Mapping) :
    s.held.count r = (s.warmer.addr.map Prod.snd).toList.count r + s.warmerAddr.toList.count r +
      (warmedOf s.pages).count r := by
  rw [State.held, List.count_append, List.count_append, warmedOf]

/-! ## The warmer thread -/

/-- **What a step of the warmer can do**: walk on with what it has, map a page, give its
mapping back, or publish it. -/
inductive WarmerEffect (o : Options) (s : State) : State → Prop where
  | walks (w : Warmer) (pending : Bool) (h : w.addr = s.warmer.addr) :
      WarmerEffect o s { s with warmer := w, warmerPending := pending }
  | maps (p : Int) (h : s.warmer.addr = none) :
      WarmerEffect o s { s with warmer := .pollCheck p ⟨s.mapped.length, p⟩ 0,
                                mapped := ⟨s.mapped.length, p⟩ :: s.mapped }
  | drops (p : Int) (m : Mapping) (h : s.warmer.addr = some (p, m)) :
      WarmerEffect o s { s.releaseMmapBuffer m o.pageSize with warmer := .wait }
  | publishes (p : Int) (m : Mapping) (h : s.warmer.addr = some (p, m)) :
      WarmerEffect o s { s with
        warmer := .wait, warmerAddr := some m, warmerReadyId := p
        released := s.warmerAddr.toList.map (⟨·, o.pageSize⟩) ++ s.released }

theorem Warmer.addr_ite {c : Prop} [Decidable c] {w w' : Warmer} {a : Option (Int × Mapping)}
    (h : w.addr = a) (h' : w'.addr = a) : (if c then w else w').addr = a := by
  split
  · exact h
  · exact h'

theorem warmerStep_running {succeeds : Bool} (h : warmerStep o succeeds s = some s') :
    s.warmer ≠ .exited := by
  intro he
  simp [warmerStep, he] at h

theorem warmerStep_cases {succeeds : Bool} (h : warmerStep o succeeds s = some s') :
    WarmerEffect o s s' := by
  have walks : ∀ w : Warmer, w.addr = s.warmer.addr → WarmerEffect o s { s with warmer := w } :=
    fun w hw => .walks w s.warmerPending hw
  unfold warmerStep at h
  cases hw : s.warmer with
  | exited => simp [hw] at h
  | wait =>
    simp only [hw] at h walks
    split at h
    · cases h
      exact walks .exited rfl
    · split at h
      · cases h
        refine .walks _ false ?_
        rw [hw]
        exact Warmer.addr_ite rfl rfl
      · cases h
  | statCheck p ms =>
    simp only [hw] at h walks
    split at h
    · cases h
      exact walks _ (Warmer.addr_ite rfl rfl)
    · cases h
      exact walks .wait rfl
  | stat p ms =>
    simp only [hw] at h walks
    cases h
    exact walks _ (Warmer.addr_ite rfl rfl)
  | doubleCheck p =>
    simp only [hw] at h walks
    cases h
    exact walks _ (Warmer.addr_ite rfl rfl)
  | map p =>
    simp only [hw] at h walks
    split at h
    · cases h
      exact .maps p (by rw [hw]; rfl)
    · cases h
      exact walks .wait rfl
  | pollCheck p m ms =>
    simp only [hw] at h walks
    split at h
    · split at h
      · cases h
        exact .drops p m (by rw [hw]; rfl)
      · cases h
        exact walks (.poll p m ms) rfl
    · cases h
      exact walks (.release p m) rfl
  | poll p m ms =>
    simp only [hw] at h walks
    cases h
    exact walks _ (Warmer.addr_ite rfl rfl)
  | prepare p m =>
    simp only [hw] at h walks
    cases h
    exact walks _ (Warmer.addr_ite rfl rfl)
  | release p m =>
    simp only [hw] at h
    cases h
    exact .drops p m (by rw [hw]; rfl)
  | publish p m =>
    simp only [hw] at h
    have hlocal : s.warmer.addr = some (p, m) := by rw [hw]; rfl
    split at h
    · cases h
      exact .drops p m hlocal
    · have hpub := WarmerEffect.publishes (o := o) p m hlocal
      cases ha : s.warmerAddr with
      | none =>
        simp only [ha] at h hpub
        cases h
        exact hpub
      | some old =>
        simp only [ha] at h hpub
        cases h
        exact hpub

/-- While the warmer runs, the destructor has not joined it. -/
theorem State.Closed.warmer (h : s.Closed) (hw : s.warmer ≠ .exited) (w : Warmer)
    (pending : Bool) (addr : Option Mapping) (ready : Int) (mapped : List Mapping)
    (released : List Release) :
    State.Closed { s with
      warmer := w, warmerPending := pending, warmerAddr := addr, warmerReadyId := ready
      mapped := mapped, released := released } := by
  unfold State.Closed at h ⊢
  cases ho : s.owner with
  | releaseWarmed =>
    simp only [ho] at h
    exact absurd h.2 hw
  | members =>
    simp only [ho] at h
    exact absurd h.1.2 hw
  | gone =>
    simp only [ho] at h
    exact absurd h.1.1.2 hw
  | wake | joinRetire | joinWarmer =>
    simp only [ho] at h
    exact h
  | _ => trivial

/-- **A step of the warmer keeps the invariant.** -/
theorem Inv.warmerStep {succeeds : Bool} (h : Inv o s)
    (hstep : warmerStep o succeeds s = some s') : Inv o s' := by
  have hclosed := h.closed.warmer (warmerStep_running hstep)
  cases warmerStep_cases hstep with
  | walks w pending hw =>
    exact { h with
      account := h.account.move fun r => by rw [State.held, State.held, hw]; rfl
      localFile := fun p m hm => h.localFile p m (hw ▸ hm)
      closed := hclosed w pending _ _ _ _ }
  | maps p hw =>
    let m : Mapping := ⟨s.mapped.length, p⟩
    have hnew : m ∉ s.mapped := fun hm => Nat.lt_irrefl _ (h.serials m hm)
    refine { h with account := h.account.make hnew fun r => ?_, serials := ?_, localFile := ?_,
                    closed := hclosed _ _ _ _ _ _ }
    · rw [State.count_held, State.count_held, hw]
      show List.count r [m] + s.warmerAddr.toList.count r + (warmedOf s.pages).count r =
        0 + s.warmerAddr.toList.count r + (warmedOf s.pages).count r + List.count r [m]
      omega
    · intro m hm
      rcases List.mem_cons.mp hm with rfl | hm
      · exact Nat.lt_succ_self _
      · exact Nat.lt_succ_of_lt (h.serials m hm)
    · rintro q m hm
      cases hm
      rfl
  | drops p m hw =>
    refine { h with account := h.account.giveBack [m] fun r => ?_, localFile := ?_, sizes := ?_,
                    closed := hclosed _ _ _ _ _ _ }
    · rw [State.count_held, State.count_held, hw]
      show List.count r [m] + s.warmerAddr.toList.count r + (warmedOf s.pages).count r =
        0 + s.warmerAddr.toList.count r + (warmedOf s.pages).count r + List.count r [m]
      omega
    · rintro q m hm
      cases hm
    · intro r hr
      rcases List.mem_cons.mp hr with rfl | hr
      · exact Or.inl rfl
      · exact h.sizes r hr
  | publishes p m hw =>
    have hback : (s.warmerAddr.toList.map fun old => (⟨old, o.pageSize⟩ : Release)).map
        Release.mapping =
        s.warmerAddr.toList := by
      rw [List.map_map]
      exact List.map_id _
    refine { h with account := ?_, localFile := ?_, readyFile := ?_, sizes := ?_,
                    closed := hclosed _ _ _ _ _ _ }
    · rw [State.back, List.map_append, hback]
      refine h.account.giveBack _ fun r => ?_
      rw [State.count_held, State.count_held, hw]
      show List.count r [m] + s.warmerAddr.toList.count r + (warmedOf s.pages).count r =
        0 + List.count r [m] + (warmedOf s.pages).count r + s.warmerAddr.toList.count r
      omega
    · rintro q m hm
      cases hm
    · rintro m' hm'
      cases hm'
      exact h.localFile p m hw
    · intro r hr
      rcases List.mem_append.mp hr with hr | hr
      · obtain ⟨x, -, rfl⟩ := List.mem_map.mp hr
        exact Or.inl rfl
      · exact h.sizes r hr

/-! ## The retire thread -/

/-- What `~Page` does. -/
theorem State.destroy_eq (s : State) (page : Page) :
    s.destroy page = { s with released := releasesOf [page] ++ s.released } := by
  cases hw : page.warmed with
  | none => simp [State.destroy, releasesOf, hw]
  | some m => simp [State.destroy, State.releaseMmapBuffer, releasesOf, hw]

theorem releasesOf_mapping (pages : List Page) :
    (releasesOf pages).map Release.mapping = warmedOf pages := by
  rw [releasesOf, List.map_filterMap, warmedOf]
  congr 1
  funext page
  rw [Option.map_map]
  exact congrFun Option.map_id _

theorem releasesOf_sizes {pages : List Page} {headerSizes : List Nat}
    (h : ∀ page ∈ pages, PageOk o headerSizes page) :
    ∀ r ∈ releasesOf pages, r.size = o.pageSize ∨ r.size ∈ headerSizes := by
  intro r hr
  obtain ⟨page, hpage, hr⟩ := List.mem_filterMap.mp hr
  obtain ⟨m, -, rfl⟩ := Option.map_eq_some_iff.mp hr
  exact (h page hpage).size

/-- **Pages change hands**, and some of them are destroyed. -/
theorem Inv.repage (h : Inv o s) (gone : List Page)
    (hcount : ∀ r, (warmedOf s.pages).count r = (warmedOf s'.pages).count r +
      (warmedOf gone).count r)
    (hok : ∀ page, page ∈ s'.pages ∨ page ∈ gone → page ∈ s.pages ∨ PageOk o s.headerSizes page)
    (hwarmer : s'.warmer = s.warmer) (haddr : s'.warmerAddr = s.warmerAddr)
    (hready : s'.warmerReadyId = s.warmerReadyId) (hmapped : s'.mapped = s.mapped)
    (hsizes : s'.headerSizes = s.headerSizes)
    (hreleased : s'.released = releasesOf gone ++ s.released) (hclosed : s'.Closed) : Inv o s' := by
  have hpages : ∀ page, page ∈ s'.pages ∨ page ∈ gone → PageOk o s.headerSizes page := by
    intro page hp
    rcases hok page hp with hp | hp
    · exact h.pages page hp
    · exact hp
  refine ⟨?_, hmapped ▸ h.serials, hwarmer ▸ h.localFile, haddr ▸ hready ▸ h.readyFile,
    fun page hp => hsizes ▸ hpages page (Or.inl hp), ?_, hclosed⟩
  · rw [hmapped, State.back, hreleased, List.map_append, releasesOf_mapping]
    refine h.account.giveBack _ fun r => ?_
    rw [State.count_held, State.count_held, hwarmer, haddr, hcount]
    omega
  · intro r hr
    rw [hreleased] at hr
    rw [hsizes]
    rcases List.mem_append.mp hr with hr | hr
    · exact releasesOf_sizes (fun page hp => hpages page (Or.inr hp)) r hr
    · exact h.sizes r hr

/-- While the retire thread runs, the destructor has not joined it. -/
theorem State.Closed.retire (h : s.Closed) (hr : s.retire ≠ .exited) (r : Retire)
    (queue : List Page) (released : List Release) :
    State.Closed { s with retire := r, retireQueue := queue, released := released } := by
  unfold State.Closed at h ⊢
  cases ho : s.owner with
  | joinWarmer =>
    simp only [ho] at h
    exact absurd h.2 hr
  | releaseWarmed =>
    simp only [ho] at h
    exact absurd h.1.2 hr
  | members =>
    simp only [ho] at h
    exact absurd h.1.1.2 hr
  | gone =>
    simp only [ho] at h
    exact absurd h.1.1.1.2 hr
  | wake | joinRetire =>
    simp only [ho] at h
    exact h
  | _ => trivial

/-- **A step of the retire thread keeps the invariant.** -/
theorem Inv.retireStep (h : Inv o s) (hstep : retireStep s = some s') : Inv o s' := by
  unfold HandOff.retireStep at hstep
  cases hr : s.retire with
  | exited => simp [hr] at hstep
  | loop =>
    have hclosed := h.closed.retire (by simp [hr])
    simp only [hr] at hstep
    cases hq : s.retireQueue with
    | nil =>
      simp only [hq] at hstep
      split at hstep
      · cases hstep
      · cases hstep
        refine h.repage [] (fun r => ?_) (fun page hp => Or.inl ?_) rfl rfl rfl rfl rfl rfl
          (hclosed _ _ _)
        · simp [State.pages, hr, hq, Retire.page]
        · simpa [State.mem_pages, hr, hq, Retire.page] using hp
    | cons page rest =>
      simp only [hq] at hstep
      cases hstep
      refine h.repage [] (fun r => ?_) (fun page hp => Or.inl ?_) rfl rfl rfl rfl rfl rfl
        (hclosed _ _ _)
      · simp [State.pages, hr, hq, Retire.page]
        omega
      · simp only [State.mem_pages, hr, hq, Retire.page] at hp ⊢
        grind
  | reset page =>
    have hclosed := h.closed.retire (by simp [hr])
    simp only [hr] at hstep
    rw [State.destroy_eq] at hstep
    cases hstep
    refine h.repage [page] (fun r => ?_) (fun page hp => Or.inl ?_) rfl rfl rfl rfl rfl rfl
      (hclosed _ _ _)
    · simp [State.pages, hr, Retire.page]
      omega
    · simp only [State.mem_pages, hr, Retire.page] at hp ⊢
      grind

/-! ## The owner -/

/-- The owner walks on with the page it has, or without one. -/
theorem Inv.walk (h : Inv o s) (w : Owner) (hw : w.page = s.owner.page)
    (hclosed : State.Closed { s with owner := w }) : Inv o { s with owner := w } := by
  refine h.repage [] (fun r => ?_) (fun page hp => Or.inl ?_) rfl rfl rfl rfl rfl rfl hclosed
  · simp [State.pages, hw]
  · simpa [State.mem_pages, hw] using hp

/-- The owner releases what the warmer left. -/
theorem Inv.drop (h : Inv o s) {m : Mapping} (hm : s.warmerAddr = some m) (w : Owner)
    (hw : w.page = s.owner.page)
    (hclosed : State.Closed { s.releaseMmapBuffer m o.pageSize with
      owner := w, warmerAddr := none, warmerReadyId := -1 }) :
    Inv o { s.releaseMmapBuffer m o.pageSize with
      owner := w, warmerAddr := none, warmerReadyId := -1 } := by
  have hpages : State.pages { s.releaseMmapBuffer m o.pageSize with
      owner := w, warmerAddr := none, warmerReadyId := -1 } = s.pages := by
    simp [State.pages, hw, State.releaseMmapBuffer]
  refine ⟨h.account.giveBack [m] fun r => ?_, h.serials, h.localFile, ?_, ?_, ?_, hclosed⟩
  · rw [State.count_held, State.count_held, hm, hpages]
    show (s.warmer.addr.map Prod.snd).toList.count r + List.count r [m] +
        (warmedOf s.pages).count r =
      (s.warmer.addr.map Prod.snd).toList.count r + 0 + (warmedOf s.pages).count r +
      List.count r [m]
    omega
  · rintro m' hm'
    cases hm'
  · rw [hpages]
    exact h.pages
  · intro r hr
    rcases List.mem_cons.mp hr with rfl | hr
    · exact Or.inl rfl
    · exact h.sizes r hr

/-- **The fast path**: the page takes the mapping over. -/
theorem Inv.adopt (h : Inv o s) {m : Mapping} (hm : s.warmerAddr = some m) (p : Int)
    (hp : s.warmerReadyId = p) (ho : s.owner.page = none) (size : Nat) :
    Inv o { s with owner := .install p ⟨p, size, some m⟩, warmerAddr := none,
                   warmerReadyId := -1, headerSizes := size :: s.headerSizes } := by
  refine ⟨h.account.move fun r => ?_, h.serials, h.localFile, ?_, ?_, ?_, trivial⟩
  · rw [State.count_held, State.count_held, hm]
    simp [State.pages, ho, show (Owner.install p ⟨p, size, some m⟩).page =
      some ⟨p, size, some m⟩ from rfl]
    omega
  · rintro m' hm'
    cases hm'
  · intro page hpage
    rw [State.mem_pages] at hpage
    rcases hpage with hpage | hpage
    · cases hpage
      refine ⟨?_, Or.inr List.mem_cons_self⟩
      rintro m' hm'
      cases hm'
      exact (h.readyFile m hm).trans hp
    · have hok := h.pages page (State.mem_pages.mpr (Or.inr hpage))
      exact ⟨hok.file, hok.size.imp_right (List.mem_cons_of_mem _)⟩
  · intro r hr
    exact (h.sizes r hr).imp_right (List.mem_cons_of_mem _)

theorem Options.installed_page (o : Options) (p : Int) : (o.installed p).page = none := by
  unfold installed
  split
  · rfl
  · rfl

theorem State.closed_installed (s : State) (p : Int) (h : s.owner = o.installed p) : s.Closed := by
  by_cases hw : o.warms = true
  · simp [Closed, h, Options.installed, hw]
  · simp [Closed, h, Options.installed, hw]

/-- `current_page_` takes the new page; the old one is queued, or destroyed at once. -/
theorem Inv.install {header : Option Nat} {loads : Bool} (h : Inv o s) {p : Int} {newPage : Page}
    (ho : s.owner = .install p newPage) (hstep : HandOff.ownerStep o header loads s = some s') :
    Inv o s' := by
  have hpage : s.owner.page = some newPage := by rw [ho]; rfl
  unfold HandOff.ownerStep at hstep
  simp only [ho] at hstep
  split at hstep
  · rename_i hcur
    cases hstep
    refine h.repage [] (fun r => ?_) (fun page hp => Or.inl ?_) rfl rfl rfl rfl rfl rfl
      (State.closed_installed _ p rfl)
    · simp [State.pages, hpage, hcur, o.installed_page]
    · simp only [State.mem_pages, hpage, hcur, o.installed_page] at hp ⊢
      grind
  · rename_i oldPage hcur
    split at hstep
    · cases hstep
      refine h.repage [] (fun r => ?_) (fun page hp => Or.inl ?_) rfl rfl rfl rfl rfl rfl trivial
      · simp [State.pages, hpage, hcur, show (Owner.trim p).page = none from rfl]
        omega
      · simp only [State.mem_pages, hpage, hcur, show (Owner.trim p).page = none from rfl] at hp ⊢
        grind
    · rw [State.destroy_eq] at hstep
      cases hstep
      refine h.repage [oldPage] (fun r => ?_) (fun page hp => Or.inl ?_) rfl rfl rfl rfl rfl rfl
        (State.closed_installed _ p rfl)
      · simp [State.pages, hpage, hcur, o.installed_page]
        omega
      · simp only [State.mem_pages, hpage, hcur, o.installed_page] at hp ⊢
        grind

/-- The pages beyond the limit are queued one by one. -/
theorem Inv.trim {header : Option Nat} {loads : Bool} (h : Inv o s) {p : Int}
    (ho : s.owner = .trim p) (hstep : HandOff.ownerStep o header loads s = some s') :
    Inv o s' := by
  have hpage : s.owner.page = none := by rw [ho]; rfl
  have hdone := h.walk (o.installed p) (by rw [hpage, o.installed_page])
    (State.closed_installed _ p rfl)
  unfold HandOff.ownerStep at hstep
  simp only [ho] at hstep
  split at hstep
  · rename_i retiredPage rest hret
    split at hstep
    · cases hstep
      refine h.repage [] (fun r => ?_) (fun page hp => Or.inl ?_) rfl rfl rfl rfl rfl rfl trivial
      · simp [State.pages, hpage, hret,
          show (Owner.handOver p retiredPage).page = some retiredPage from rfl]
        omega
      · simp only [State.mem_pages, hpage, hret,
          show (Owner.handOver p retiredPage).page = some retiredPage from rfl] at hp ⊢
        grind
    · cases hstep
      exact hdone
  · cases hstep
    exact hdone

/-- **A step of the owner keeps the invariant.** -/
theorem Inv.ownerStep {header : Option Nat} {loads : Bool} (h : Inv o s)
    (hstep : ownerStep o header loads s = some s') : Inv o s' := by
  have hclosed := h.closed
  unfold State.Closed at hclosed
  unfold HandOff.ownerStep at hstep
  cases ho : s.owner with
  | idle | gone => simp [ho] at hstep
  | lookup p =>
    have hpage : s.owner.page = none := by rw [ho]; rfl
    have hgo := h.walk (.load p) hpage.symm trivial
    simp only [ho] at hstep
    split at hstep
    · rename_i m hm
      split at hstep
      · rename_i hready
        cases header with
        | some size =>
          cases hstep
          exact h.adopt hm p hready hpage size
        | none =>
          cases hstep
          exact h.drop hm (.load p) hpage.symm trivial
      · cases hstep
        exact hgo
    · cases hstep
      exact hgo
  -- the fallback loads a page of its own, with no warmed mapping behind it
  | load p =>
    have hpage : s.owner.page = none := by rw [ho]; rfl
    simp only [ho] at hstep
    split at hstep
    · cases hstep
      refine h.repage [] (fun r => ?_) (fun page hp => ?_) rfl rfl rfl rfl rfl rfl trivial
      · simp [State.pages, hpage, show (Owner.install p ⟨p, o.pageSize, none⟩).page =
          some ⟨p, o.pageSize, none⟩ from rfl]
      · rcases hp with hp | hp
        · rcases State.mem_pages.mp hp with hp | hp
          · cases hp
            exact Or.inr ⟨fun m hm => (by cases hm), Or.inl rfl⟩
          · exact Or.inl (State.mem_pages.mpr (Or.inr hp))
        · cases hp
    · cases hstep
      exact h.walk .idle hpage.symm trivial
  | install p newPage => exact h.install ho hstep
  | trim p => exact h.trim ho hstep
  -- the page moves from the owner's hands to the queue
  | handOver p retiredPage =>
    have hpage : s.owner.page = some retiredPage := by rw [ho]; rfl
    simp only [ho] at hstep
    cases hstep
    refine h.repage [] (fun r => ?_) (fun page hp => Or.inl ?_) rfl rfl rfl rfl rfl rfl trivial
    · simp [State.pages, hpage, show (Owner.trim p).page = none from rfl]
      omega
    · simp only [State.mem_pages, hpage, show (Owner.trim p).page = none from rfl] at hp ⊢
      grind
  | signal p =>
    have hpage : s.owner.page = none := by rw [ho]; rfl
    simp only [ho] at hstep
    cases hstep
    refine h.repage [] (fun r => ?_) (fun page hp => Or.inl ?_) rfl rfl rfl rfl rfl rfl trivial
    · simp [State.pages, hpage, show Owner.idle.page = none from rfl]
    · simpa [State.mem_pages, hpage, show Owner.idle.page = none from rfl] using hp
  | wake =>
    simp only [ho] at hstep hclosed
    cases hstep
    exact h.walk .joinRetire (by rw [ho]; rfl) hclosed
  | joinRetire =>
    simp only [ho] at hstep hclosed
    split at hstep
    · rename_i hr
      cases hstep
      exact h.walk .joinWarmer (by rw [ho]; rfl) ⟨hclosed, hr⟩
    · cases hstep
  | joinWarmer =>
    simp only [ho] at hstep hclosed
    split at hstep
    · rename_i hw
      cases hstep
      exact h.walk .releaseWarmed (by rw [ho]; rfl) ⟨hclosed, hw⟩
    · cases hstep
  | releaseWarmed =>
    simp only [ho] at hstep hclosed
    split at hstep
    · rename_i m hm
      cases hstep
      exact h.drop hm .members (by rw [ho]; rfl) ⟨hclosed, rfl⟩
    · rename_i hm
      cases hstep
      exact h.walk .members (by rw [ho]; rfl) ⟨hclosed, hm⟩
  -- the members of the journal go, and what is queued goes with them
  | members =>
    have hpage : s.owner.page = none := by rw [ho]; rfl
    simp only [ho] at hstep hclosed
    cases hstep
    refine h.repage s.retireQueue (fun r => ?_) (fun page hp => Or.inl ?_) rfl rfl rfl rfl rfl rfl
      ⟨hclosed, rfl⟩
    · simp [State.pages, hpage, show Owner.gone.page = none from rfl]
      omega
    · simp only [State.mem_pages, hpage, show Owner.gone.page = none from rfl] at hp ⊢
      grind

/-! ## Every run -/

/-- **Every move keeps the invariant.** -/
theorem Inv.step {move : Move} (h : Inv o s) (hstep : step o move s = some s') : Inv o s' := by
  cases move with
  | loadPage p =>
    rw [HandOff.step] at hstep
    split at hstep
    · rename_i ho
      have hpage : s.owner.page = none := by rw [ho]; rfl
      split at hstep
      · cases hstep
        exact h
      · cases hstep
        by_cases hw : o.warms = true
        · rw [if_pos hw]
          exact h.walk (.lookup p) hpage.symm trivial
        · rw [if_neg hw]
          exact h.walk (.load p) hpage.symm trivial
    · cases hstep
  | destruct =>
    rw [HandOff.step] at hstep
    split at hstep
    · rename_i ho
      have hpage : s.owner.page = none := by rw [ho]; rfl
      cases hstep
      refine h.repage [] (fun r => ?_) (fun page hp => Or.inl ?_) rfl rfl rfl rfl rfl rfl ⟨rfl, rfl⟩
      · simp [State.pages, hpage, show Owner.wake.page = none from rfl]
        omega
      · simp only [State.mem_pages, hpage, show Owner.wake.page = none from rfl] at hp ⊢
        grind
    · cases hstep
  | owner header loads => exact h.ownerStep hstep
  | warmer succeeds => exact h.warmerStep hstep
  | retire => exact h.retireStep hstep

theorem Inv.start (o : Options) : Inv o o.start := by
  have hwarmer : o.start.warmer.addr = none := by
    simp only [Options.start]
    exact Warmer.addr_ite rfl rfl
  have hretire : o.start.retire.page = none := by
    simp only [Options.start]
    split
    · rfl
    · rfl
  have hpages : o.start.pages = [] := by
    rw [State.pages, hretire]
    rfl
  refine ⟨?_, fun m hm => ?_, fun p m hm => ?_, fun m hm => ?_, fun page hp => ?_,
    fun r hr => ?_, trivial⟩
  · rw [State.held, hwarmer, hpages]
    exact .empty
  · cases hm
  · rw [hwarmer] at hm
    cases hm
  · cases hm
  · rw [hpages] at hp
    cases hp
  · cases hr

theorem Reaches.inv (h : Reaches o s) : Inv o s := by
  induction h with
  | start => exact .start o
  | step _ hstep ih => exact ih.step hstep

/-- **What becomes of the warmer's mappings.** -/
structure HandedOver (o : Options) (s : State) : Prop where
  /-- No two mappings that were made are taken for one. -/
  distinct : s.mapped.Nodup
  /-- A mapping is in exactly one place, or was released exactly once. -/
  once : ∀ m ∈ s.mapped, s.held.count m + s.back.count m = 1
  /-- Nothing else is in any place. -/
  known : ∀ m ∈ s.held, m ∈ s.mapped
  /-- A page that was adopted is mapped from its own file. -/
  adopted : ∀ page ∈ s.pages, ∀ m, page.warmed = some m → m.file = page.pageId
  /-- The size released is the page size, or what `loadFromAddress` read for it. -/
  sizes : ∀ r ∈ s.released, r.size = o.pageSize ∨ r.size ∈ s.headerSizes
  /-- After the destructor, every mapping was released. -/
  settled : s.owner = .gone → s.held = [] ∧ ∀ m ∈ s.mapped, s.back.count m = 1

/-- Behind the destructor, nothing is held. -/
theorem Inv.held_gone (h : Inv o s) (ho : s.owner = .gone) : s.held = [] := by
  have hclosed := h.closed
  unfold State.Closed at hclosed
  simp only [ho] at hclosed
  obtain ⟨⟨⟨⟨⟨hcur, hret⟩, hretire⟩, hwarmer⟩, haddr⟩, hqueue⟩ := hclosed
  have hpages : s.pages = [] := by
    rw [State.pages, ho, hcur, hret, hqueue, hretire]
    rfl
  rw [State.held, hwarmer, haddr, hpages]
  rfl

/-- **Hand-off of warmed pages.**  In every state a `Journal` gets to, whatever its calls,
the order of its threads' steps and what the kernel makes of them. -/
theorem warm_hand_off (o : Options) (s : State) (h : Reaches o s) : HandedOver o s := by
  have hi := h.inv
  refine ⟨hi.account.distinct, fun m hm => hi.account.once hm,
    fun m hm => hi.account.made_of_held hm, fun page hp => (hi.pages page hp).file,
      hi.sizes, fun ho => ?_⟩
  have hheld := hi.held_gone ho
  refine ⟨hheld, fun m hm => ?_⟩
  have hone := hi.account.once hm
  rw [hheld] at hone
  exact (Nat.zero_add _).symm.trans hone

/-- A reader loads page 1; its page 2 is warmed and adopted; while the warmer has page 3
mapped, the reader seeks to page 5, and is destroyed. -/
def seekAway : List Move :=
  let parts : List (Nat × Move) :=
    [(1, .loadPage 1), (4, .owner none true), (9, .warmer true), (1, .loadPage 2),
      (6, .owner (some 2097152) true), (5, .warmer true), (1, .loadPage 5), (7, .owner none true),
      (1, .warmer true), (1, .destruct), (7, .retire), (1, .warmer true), (5, .owner none true)]
  parts.flatMap fun part => List.replicate part.1 part.2

/-- A reader that does not prefault, with the default page size. -/
def lazyReader : Options := ⟨false, true, 0, 5000, 2097152⟩

/-- There, both mappings were released once. -/
theorem warm_hand_off_seekAway :
    ∃ s, run lazyReader seekAway lazyReader.start = some s ∧ s.owner = .gone ∧
      s.mapped = [⟨1, 3⟩, ⟨0, 2⟩] ∧ HandedOver lazyReader s := by
  have h : (run lazyReader seekAway lazyReader.start).map (fun s => (s.owner, s.mapped)) =
      some (.gone, [⟨1, 3⟩, ⟨0, 2⟩]) := by decide
  obtain ⟨s, hrun, hs⟩ := Option.map_eq_some_iff.mp h
  obtain ⟨ho, hm⟩ := Prod.mk.inj hs
  exact ⟨s, hrun, ho, hm, warm_hand_off lazyReader s (Reaches.start.run hrun)⟩

end
end Revoq.HandOff
