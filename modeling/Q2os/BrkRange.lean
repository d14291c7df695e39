import Q2os.UnsharedTables

/- The range of addresses that do_brk maps, and what a failure of it leaves. -/
namespace AddressSpace
open Bitmap PageAllocator PageRuns Kmalloc KmallocSlabs KmallocSafety SlabInit PageRules SlabCache
  TableTree Run

/- The loop of do_brk over n pages from i on, wherever they are: the last i, or none where
alloc_pages gives NULL. -/
def brkLoop (k : Kernel) (pgd : Nat) : Nat → Nat → Option (Kernel × Option Nat)
  | 0, i => some (k, some i)
  | n + 1, i => do
    match ← mapPage k pgd i with
    | (k, false) => return (k, none)
    | (k, true) => brkLoop k pgd n (i + pageSize)

def pagesIn (len : Nat) : Nat := (len + pageSize - 1) / pageSize

/- do_brk with what it stores in current->mm. -/
def doBrkMm (k : Kernel) (mm : Mm) (addr len : Nat) : Option (Kernel × Mm × Nat) :=
  (brkLoop k mm.pgd (pagesIn len) addr).map fun r =>
    match r.2 with
    | none => (r.1, mm, minusENOMEM)
    | some i => (r.1, { mm with endBrk := i }, i)

def sysBrkMm (k : Kernel) (mm : Mm) (brk : Nat) : Option (Kernel × Mm × Nat) :=
  let newBrk := page2MAlign brk
  if newBrk = 0 then some (k, mm, mm.startBrk)
  else if newBrk < mm.endBrk then some (k, mm, 0)
  else (doBrkMm k mm mm.endBrk (newBrk - mm.endBrk)).map fun r =>
    (r.1, { r.2.1 with endBrk := r.2.2 }, r.2.2)

/- In the user half it is the do_brk of AddressSpace. -/

theorem brk_loop_user {k k' : Kernel} {pgd n i r : Nat}
    (call : brkPages k pgd n i = some (k', r)) :
    ∃ last, brkLoop k pgd n i = some (k', last) ∧ r = last.getD minusENOMEM := by
  induction n generalizing k i with
  | zero =>
    cases call
    exact ⟨_, rfl, rfl⟩
  | succ n ih =>
    rw [brkPages] at call
    split at call
    · obtain ⟨⟨k₁, ok⟩, mapped, call⟩ := Option.bind_eq_some_iff.mp call
      rw [brkLoop, mapped]
      cases ok with
      | false =>
        cases call
        exact ⟨none, rfl, rfl⟩
      | true => exact ih call
    · cases call

theorem sys_brk_user {k k' : Kernel} {mm mm' : Mm} {brk r : Nat}
    (call : sysBrk k mm brk = some (k', mm', r)) : sysBrkMm k mm brk = some (k', mm', r) := by
  unfold sysBrk at call
  unfold sysBrkMm
  dsimp only at call ⊢
  split at call
  · next zero => rw [if_pos zero]; exact call
  · next nonzero =>
    rw [if_neg nonzero]
    split at call
    · next below => rw [if_pos below]; exact call
    · next beyond =>
      rw [if_neg beyond]
      obtain ⟨⟨k₁, e⟩, grown, made⟩ := Option.map_eq_some_iff.mp call
      cases made
      obtain ⟨last, looped, rfl⟩ := brk_loop_user grown
      unfold doBrkMm pagesIn
      rw [looped]
      cases last with
      | none => rfl
      | some i => rfl

def Found (pgd : Nat) : Kernel → Nat → Nat → Prop
  | _, 0, _ => True
  | k, n + 1, i => ∃ k', mapPage k pgd i = some (k', true) ∧ Found pgd k' n (i + pageSize)

theorem found_iff {k : Kernel} {pgd n i : Nat} : Found pgd k n i ↔
    ∃ k', brkLoop k pgd n i = some (k', some (i + pageSize * n)) := by
  induction n generalizing k i with
  | zero => exact ⟨fun _ => ⟨k, rfl⟩, fun _ => trivial⟩
  | succ n ih =>
    have far : i + pageSize + pageSize * n = i + pageSize * (n + 1) := by
      rw [Nat.mul_succ]
      omega
    constructor
    · rintro ⟨k₁, mapped, rest⟩
      obtain ⟨k', looped⟩ := ih.mp rest
      refine ⟨k', ?_⟩
      rw [brkLoop, mapped, ← far]
      exact looped
    · rintro ⟨k', looped⟩
      rw [brkLoop] at looped
      obtain ⟨⟨k₁, ok⟩, mapped, looped⟩ := Option.bind_eq_some_iff.mp looped
      cases ok with
      | false => cases looped
      | true =>
        rw [← far] at looped
        exact ⟨k₁, mapped, ih.mpr ⟨k', looped⟩⟩

def NewlyMapped (k k' : Kernel) (pgd a p : Nat) : Prop :=
  mapping k.memory pgd a = none ∧ mapping k'.memory pgd a = some (pageSize * p)

/-- What do_brk has made of the addresses from addr to stop. -/
structure Ranged (k k' : Kernel) (pgd addr stop : Nat) : Prop where
  mapped : ∀ a, addr ≤ a → a < stop → ∃ p, mapping k'.memory pgd a = some (pageSize * p)
  kept : ∀ a q, mapping k.memory pgd a = some q → mapping k'.memory pgd a = some q
  outside : ∀ a, ¬ (addr ≤ a ∧ a < stop) → mapping k'.memory pgd a = mapping k.memory pgd a
  free : ∀ a p, NewlyMapped k k' pgd a p → bit k.account.heap.g.bitsMap p = false
  marked : ∀ p, bit k.account.heap.g.bitsMap p = true → bit k'.account.heap.g.bitsMap p = true
  used : ∀ a p, NewlyMapped k k' pgd a p → bit k'.account.heap.g.bitsMap p = true
  distinct : ∀ a b p, NewlyMapped k k' pgd a p → NewlyMapped k k' pgd b p →
    a / pageSize = b / pageSize
  frames : Frames k k' pgd

variable {boot : Nat → Prop} {otherPages : List Nat} {otherBlocks : List (Nat × Nat)}
  {k k' : Kernel} {pgd : Nat} {level : Nat → List Nat}

theorem mapping_of_page {memory : TableTree.Words} {v w : Nat} (user : v < userEnd)
    (user' : w < userEnd) (same : w / pageSize = v / pageSize) :
    mapping memory pgd w = mapping memory pgd v := by
  unfold mapping
  rw [if_pos user, if_pos user', (path_same user user').mpr same]

theorem ranged_none (k : Kernel) (pgd i : Nat) : Ranged k k pgd i i where
  mapped a above below := by omega
  kept _ _ there := there
  outside _ _ := rfl
  free a p new := by
    obtain ⟨absent, there⟩ := new
    rw [absent] at there
    cases there
  marked _ before := before
  used a p new := by
    obtain ⟨absent, there⟩ := new
    rw [absent] at there
    cases there
  distinct a b p new := by
    obtain ⟨absent, there⟩ := new
    rw [absent] at there
    cases there
  frames := .refl k pgd

theorem ranged_one {j : Nat} (user : pageSize * j + pageSize ≤ userEnd)
    (adds : Adds k k' pgd (pageSize * j)) (space : Space k' pgd level) (frames : Frames k k' pgd)
    (marked : ∀ p, bit k.account.heap.g.bitsMap p = true → bit k'.account.heap.g.bitsMap p = true) :
    Ranged k k' pgd (pageSize * j) (pageSize * j + pageSize) := by
  have first : pageSize * j < userEnd := by
    unfold pageSize at *
    omega
  have in_page : ∀ a, pageSize * j ≤ a → a < pageSize * j + pageSize →
      a < userEnd ∧ a / pageSize = pageSize * j / pageSize := by
    unfold pageSize at *
    omega
  have out_page : ∀ a, ¬ (pageSize * j ≤ a ∧ a < pageSize * j + pageSize) →
      a / pageSize ≠ pageSize * j / pageSize := by
    unfold pageSize
    omega
  cases adds with
  | @old q there same =>
    refine ⟨fun a above below => ?_, fun a q there => ?_, fun a _ => same a, fun a p new => ?_,
      marked, fun a p new => ?_, fun a b p new => ?_, frames⟩
    · obtain ⟨user', page⟩ := in_page a above below
      have here : mapping k'.memory pgd (pageSize * j) = some q := by rw [same]; exact there
      rw [mapping_of_page first user' page]
      obtain ⟨_, p, _, rfl⟩ := mapping_page space here
      exact ⟨p, here⟩
    · rw [same]
      exact there
    · have there := new.2
      rw [same, new.1] at there
      cases there
    · have there := new.2
      rw [same, new.1] at there
      cases there
    · have there := new.2
      rw [same, new.1] at there
      cases there
  | @new p absent free taken added =>
    have only : ∀ a q, NewlyMapped k k' pgd a q → a / pageSize = pageSize * j / pageSize ∧ q = p := by
      intro a q new
      have there := new.2
      rw [added] at there
      split at there
      · next here =>
        exact ⟨here.2, (Nat.eq_of_mul_eq_mul_left (by decide) (Option.some.inj there)).symm⟩
      · rw [new.1] at there
        cases there
    refine ⟨fun a above below => ⟨p, ?_⟩, fun a q there => ?_, fun a away => ?_, fun a q new => ?_,
      marked, fun a q new => ?_, fun a b q new new' => ?_, frames⟩
    · rw [added, if_pos (in_page a above below)]
    · rw [added, if_neg]
      · exact there
      · rintro ⟨user', page⟩
        rw [mapping_of_page first user' page, absent] at there
        cases there
    · rw [added, if_neg fun here => out_page a away here.2]
    · rw [(only a q new).2]
      exact free
    · rw [(only a q new).2]
      exact taken
    · rw [(only a q new).1, (only b q new').1]

theorem Ranged.trans {k₁ : Kernel} {i m stop : Nat} (first : Ranged k k₁ pgd i m)
    (rest : Ranged k₁ k' pgd m stop) (low : i ≤ m) (high : m ≤ stop) :
    Ranged k k' pgd i stop := by
  have split_new : ∀ {a p}, NewlyMapped k k' pgd a p →
      NewlyMapped k k₁ pgd a p ∨ NewlyMapped k₁ k' pgd a p := by
    rintro a p ⟨absent, there⟩
    cases between : mapping k₁.memory pgd a with
    | none => exact Or.inr ⟨between, there⟩
    | some q =>
      have same := rest.kept a q between
      rw [there] at same
      exact Or.inl ⟨absent, between.trans same.symm⟩
  have apart : ∀ {a b p}, NewlyMapped k k₁ pgd a p → ¬ NewlyMapped k₁ k' pgd b p := by
    intro a b p new later
    have used := first.used a p new
    rw [rest.free b p later] at used
    cases used
  refine ⟨fun a above below => ?_, fun a q there => rest.kept a q (first.kept a q there),
    fun a away => ?_, fun a p new => ?_, fun p before => rest.marked p (first.marked p before),
    fun a p new => ?_, fun a b p new new' => ?_, first.frames.trans rest.frames⟩
  · by_cases later : m ≤ a
    · exact rest.mapped a later below
    · obtain ⟨p, there⟩ := first.mapped a above (Nat.not_le.mp later)
      exact ⟨p, rest.kept a _ there⟩
  · rw [rest.outside a (by omega), first.outside a (by omega)]
  · rcases split_new new with early | late
    · exact first.free a p early
    · have free := rest.free a p late
      rw [← Bool.not_eq_true] at free ⊢
      exact fun before => free (first.marked p before)
  · rcases split_new new with early | late
    · exact rest.marked p (first.used a p early)
    · exact rest.used a p late
  · rcases split_new new with early | late
    · rcases split_new new' with early' | late'
      · exact first.distinct a b p early early'
      · exact absurd late' (apart early)
    · rcases split_new new' with early' | late'
      · exact absurd late (apart early')
      · exact rest.distinct a b p late late'

/-- Where every allocation succeeds the loop maps its range and nothing else. -/
theorem found_ranged {n j : Nat} (sound : Sound boot otherPages otherBlocks k.account)
    (space : Space k pgd level) (unshared : Unshared format k.memory pgd)
    (far : pageSize * j + pageSize * n ≤ userEnd) (found : Found pgd k n (pageSize * j)) :
    ∃ k', brkLoop k pgd n (pageSize * j) = some (k', some (pageSize * j + pageSize * n)) ∧
      Sound boot otherPages otherBlocks k'.account ∧ (∃ level', Space k' pgd level') ∧
      Ranged k k' pgd (pageSize * j) (pageSize * j + pageSize * n) := by
  induction n generalizing k j level with
  | zero => exact ⟨k, rfl, sound, ⟨level, space⟩, ranged_none k pgd _⟩
  | succ n ih =>
    obtain ⟨k₁, mapped, rest⟩ := found
    have next_page : pageSize * j + pageSize = pageSize * (j + 1) := rfl
    have last : pageSize * (j + 1) + pageSize * n = pageSize * j + pageSize * (n + 1) := by
      rw [← next_page, Nat.mul_succ]
      omega
    have user : pageSize * j + pageSize ≤ userEnd := by
      rw [next_page]
      omega
    have here : pageSize * j < userEnd := by
      unfold pageSize at *
      omega
    rw [next_page] at rest
    obtain ⟨sound₁, level₁, space₁⟩ := map_page_spec sound space here mapped
    obtain ⟨unshared₁, -, adds⟩ := map_page_exact sound space unshared here mapped
    have one := ranged_one user (adds rfl) space₁ (map_page_frames sound space here mapped)
      (taken_marks sound (map_page_taken mapped))
    obtain ⟨k', looped, sound', space', more⟩ := ih sound₁ space₁ unshared₁ (by omega) rest
    rw [last] at looped more
    rw [next_page] at one
    refine ⟨k', ?_, sound', space', one.trans more (by rw [← next_page]; omega) (by omega)⟩
    rw [brkLoop, mapped]
    exact looped

/-- What do_brk owes its caller: the range is mapped by pages of the user, which were free where
they are new, and no other address has changed, those of the kernel half included. -/
structure Grown (k k' : Kernel) (pgd addr stop : Nat) : Prop where
  ranged : Ranged k k' pgd addr stop
  user : ∀ a, addr ≤ a → a < stop → (entriesOn k'.memory (pathOf a) pgd).map (· % tableBytes) =
    [pageUserDir, pageUserDir, pageUserPage]
  upper : ∀ v, 256 ≤ gdtIndex v →
    (∀ t ∈ (tablesOn k.memory (pathOf v) pgd).tail,
      (physToVirt t, tableBytes) ∉ k'.account.blocks) →
    walk k'.memory (pathOf v) pgd = walk k.memory (pathOf v) pgd

theorem found_grown {mm : Mm} {addr len : Nat} (sound : Sound boot otherPages otherBlocks k.account)
    (space : Space k mm.pgd level) (unshared : Unshared format k.memory mm.pgd)
    (aligned : addr % pageSize = 0) (low : addr + len ≤ userEnd)
    (found : Found mm.pgd k (pagesIn len) addr) :
    ∃ k', doBrkMm k mm addr len = some (k', { mm with endBrk := page2MAlign (addr + len) },
        page2MAlign (addr + len)) ∧ Grown k k' mm.pgd addr (page2MAlign (addr + len)) := by
  obtain ⟨j, rfl⟩ : ∃ j, addr = pageSize * j :=
    ⟨addr / pageSize, (Nat.mul_div_cancel' (Nat.dvd_of_mod_eq_zero aligned)).symm⟩
  have stop : pageSize * j + pageSize * pagesIn len = page2MAlign (pageSize * j + len) := by
    unfold userEnd at low
    unfold pagesIn page2MAlign
    unfold pageSize at *
    omega
  have far : pageSize * j + pageSize * pagesIn len ≤ userEnd := by
    unfold userEnd at low ⊢
    unfold pagesIn
    unfold pageSize at *
    omega
  obtain ⟨k', looped, kept, ⟨level', space'⟩, ranged⟩ :=
    found_ranged sound space unshared far found
  rw [stop] at looped ranged
  refine ⟨k', ?_, ranged, fun a above below => ?_, fun v high foreign =>
    ranged.frames.upper_walk kept high foreign⟩
  · unfold doBrkMm
    rw [looped]
    rfl
  · obtain ⟨p, there⟩ := ranged.mapped a above below
    unfold mapping at there
    split at there
    · next user =>
      rw [space.pgd_base] at there
      exact @walk_tags _ _ _ format_ok space'.tree (pathOf a) 0 _ _ (Nat.le_refl 3)
        (path_within user) space'.pgd_listed there
    · cases there

/-- In every process, wherever all allocations succeed, do_brk maps exactly the range asked for
and returns its end. -/
theorem do_brk_maps (b : Machine) (bootable : Bootable b) (s₀ s : System) (es : List Event)
    (start : Start b s₀) (run : Steps Step s₀ es s) (addr len : Nat)
    (aligned : addr % pageSize = 0) (low : addr + len ≤ userEnd)
    (found : Found s.task.mm.pgd s.kernel (pagesIn len) addr) :
    ∃ k', doBrkMm s.kernel s.task.mm addr len =
        some (k', { s.task.mm with endBrk := page2MAlign (addr + len) },
          page2MAlign (addr + len)) ∧
      Grown s.kernel k' s.task.mm.pgd addr (page2MAlign (addr + len)) := by
  obtain ⟨ready, alone⟩ := run_alone bootable start run
  obtain ⟨level, space⟩ := ready.space
  exact found_grown ready.sound space alone aligned low found

theorem started_stocked {mms tables tasks pages : Nat}
    (stocked : Stocked (slabInit (initMemory machine128)) (mms + 1) (tables + 3) tasks (pages + 1)) :
    ∃ s, Start machine128 s ∧ s.task.mm.endBrk = brkStart ∧ s.task.flags &&& pfVfork = 0 ∧
      Stocked s.kernel.account.heap mms tables tasks pages ∧
      ∃ q, mapping s.kernel.memory s.task.mm.pgd codeStart = some q := by
  let t : Task := ⟨0, pfVfork, ⟨0, 0, 0, 0⟩⟩
  have vfork : t.flags &&& pfVfork ≠ 0 := by decide
  have booted : Sound (bootInUse machine128) [] [] ⟨slabInit (initMemory machine128), [], []⟩ :=
    ⟨(BootPages.boot_ready HeapRuns.machine128_bootable).inv, trivial⟩
  generalize at_boot : slabInit (initMemory machine128) = h at stocked booted
  obtain ⟨k, t', exec, flags, left, code⟩ := @do_execve_some _ _ _ ⟨⟨h, [], []⟩, fun _ => 0, 0⟩
    mms tables tasks pages t (fun _ => 0) booted vfork stocked
  obtain ⟨_, _, _, last⟩ := do_execve_spec booted (fun plain => absurd plain vfork) exec
  refine ⟨⟨k, t', [], []⟩, start_of_exec at_boot vfork exec, last, ?_, left, code⟩
  change t'.flags &&& pfVfork = 0
  rw [flags]
  decide

theorem stocked_found {n i mms tables tasks pages : Nat}
    (sound : Sound boot otherPages otherBlocks k.account) (space : Space k pgd level)
    (far : i + pageSize * n ≤ userEnd)
    (stocked : Stocked k.account.heap mms (tables + 2 * n) tasks (pages + n)) :
    Found pgd k n i := by
  obtain ⟨k', grown, -⟩ := brk_pages_some sound space far stocked
  obtain ⟨last, looped, value⟩ := brk_loop_user grown
  cases last with
  | none =>
    have value : i + pageSize * n = minusENOMEM := value
    unfold userEnd at far
    unfold minusENOMEM at value
    omega
  | some r =>
    have value : i + pageSize * n = r := value
    rw [← value] at looped
    exact found_iff.mpr ⟨k', looped⟩

/- Two pages, the second one asked for by a byte: it is past a gigabyte and needs another table. -/
theorem do_brk_maps_border : ∃ s k', Start machine128 s ∧
    doBrkMm s.kernel s.task.mm 0x3fe00000 0x200001 =
      some (k', { s.task.mm with endBrk := 0x40200000 }, 0x40200000) ∧
    Grown s.kernel k' s.task.mm.pgd 0x3fe00000 0x40200000 := by
  obtain ⟨s, start, _, _, stocked, _⟩ := @started_stocked 0 (0 + 2 * 2) 0 (0 + 2)
    ⟨by decide +kernel, by decide +kernel, by decide +kernel, by decide +kernel⟩
  obtain ⟨ready, _⟩ := run_alone HeapRuns.machine128_bootable start (.nil s)
  obtain ⟨level, space⟩ := ready.space
  have found : Found s.task.mm.pgd s.kernel (pagesIn 0x200001) 0x3fe00000 :=
    stocked_found ready.sound space (by decide) stocked
  obtain ⟨k', done, grown⟩ := do_brk_maps machine128 HeapRuns.machine128_bootable s s [] start
    (.nil s) 0x3fe00000 0x200001 (by decide) (by decide) found
  exact ⟨s, k', start, done, grown⟩

end AddressSpace
