import Q2os.BrkRange
import Q2os.GivenBack

/- sys_brk where a page or a table cannot be allocated. -/
namespace AddressSpace
open Bitmap PageAllocator PageRuns Kmalloc KmallocSlabs KmallocSafety SlabInit PageRules SlabCache
  TableTree Run

/- The expansion of sys_brk is reached, and not all that its loop asks for is found. -/
structure Short (k : Kernel) (mm : Mm) (brk : Nat) : Prop where
  nonzero : page2MAlign brk ≠ 0
  beyond : mm.endBrk ≤ page2MAlign brk
  missing : ¬ Found mm.pgd k (pagesIn (page2MAlign brk - mm.endBrk)) mm.endBrk

def IsError (r : Nat) : Prop := 2 ^ 64 - 0x1000 ≤ r

/-- sys_brk returns an error and leaves the mm as it was, and every later call stores and returns
what it would have without the failed one. -/
def Unharmed (k : Kernel) (mm : Mm) (brk : Nat) : Prop :=
  ∃ k' r, sysBrkMm k mm brk = some (k', mm, r) ∧ IsError r ∧
    ∀ later, (sysBrkMm k' mm later).map Prod.snd = (sysBrkMm k mm later).map Prod.snd

theorem brk_loop_last {k k' : Kernel} {pgd n i r : Nat}
    (looped : brkLoop k pgd n i = some (k', some r)) : r = i + pageSize * n := by
  induction n generalizing k i with
  | zero =>
    cases looped
    rfl
  | succ n ih =>
    rw [brkLoop] at looped
    obtain ⟨⟨k₁, ok⟩, mapped, looped⟩ := Option.bind_eq_some_iff.mp looped
    cases ok with
    | false => cases looped
    | true =>
      have last := ih looped
      rw [Nat.mul_succ]
      omega

/-- Where something is missing, sys_brk stores the error code as the end of the heap, if it comes
to an end. -/
theorem short_stores {k k' : Kernel} {mm mm' : Mm} {brk r : Nat} (short : Short k mm brk)
    (call : sysBrkMm k mm brk = some (k', mm', r)) :
    r = minusENOMEM ∧ mm' = { mm with endBrk := minusENOMEM } := by
  unfold sysBrkMm at call
  dsimp only at call
  rw [if_neg short.nonzero, if_neg (Nat.not_lt.mpr short.beyond)] at call
  obtain ⟨⟨k₁, mm₁, r₁⟩, done, made⟩ := Option.map_eq_some_iff.mp call
  obtain ⟨⟨k₂, last⟩, looped, stored⟩ := Option.map_eq_some_iff.mp done
  cases last with
  | none =>
    cases stored
    cases made
    exact ⟨rfl, rfl⟩
  | some i =>
    have at_end := brk_loop_last looped
    subst at_end
    exact absurd (found_iff.mpr ⟨k₂, looped⟩) short.missing

theorem short_harms {k : Kernel} {mm : Mm} {brk : Nat} (short : Short k mm brk) :
    ¬ Unharmed k mm brk := by
  rintro ⟨k', r, call, -, -⟩
  obtain ⟨-, stored⟩ := short_stores short call
  have last : mm.endBrk = minusENOMEM := congrArg Mm.endBrk stored
  have beyond := short.beyond
  have below := align_below brk
  omega

/-- A failure of sys_brk leaves the heap as it was only where there is none: whatever is missing
of the expansion, the error code becomes the end of the heap, or NULL is stored through. -/
theorem sys_brk_unharmed_iff (k : Kernel) (mm : Mm) (brk : Nat) :
    (Short k mm brk → Unharmed k mm brk) ↔ ¬ Short k mm brk := by
  constructor
  · exact fun unharmed short => short_harms short (unharmed short)
  · exact fun enough short => absurd short enough

/- From then on sys_brk only answers: it neither grows the heap nor returns its end. -/
theorem failed_answers {k : Kernel} {mm : Mm} (failed : mm.endBrk = minusENOMEM) (brk : Nat) :
    sysBrkMm k mm brk = some (k, mm, if page2MAlign brk = 0 then mm.startBrk else 0) := by
  unfold sysBrkMm
  dsimp only
  split
  · rfl
  · rw [failed, if_pos (align_below brk)]

/- All pages but the last one are taken before the first do_execve. -/

def drained : Nat → Gmd → Gmd
  | 0, g => g
  | n + 1, g => drained n (allocPages g zoneNormal 1).1

theorem drained_left {n m : Nat} {g : Gmd} (left : PagesLeft g (n + m)) :
    PagesLeft (drained n g) m := by
  induction n generalizing g with
  | zero => rwa [Nat.zero_add] at left
  | succ n ih =>
    rw [Nat.succ_add] at left
    exact ih left.2

theorem fewer_left {n : Nat} {g : Gmd} (left : PagesLeft g (n + 1)) : PagesLeft g n := by
  induction n generalizing g with
  | zero => trivial
  | succ n ih => exact ⟨left.1, ih left.2⟩

theorem drained_succ (n : Nat) (g : Gmd) :
    drained (n + 1) g = (allocPages (drained n g) zoneNormal 1).1 := by
  induction n generalizing g with
  | zero => rfl
  | succ n ih => exact ih _

theorem drain_run {n : Nat} {a : Account} (left : PagesLeft a.heap.g n) :
    ∃ a', Steps OtherStep a (List.replicate n .allocPages) a' ∧ a'.blocks = a.blocks ∧
      a'.heap = { a.heap with g := drained n a.heap.g } := by
  induction n generalizing a with
  | zero => exact ⟨a, .nil a, rfl, rfl⟩
  | succ n ih =>
    obtain ⟨some_page, rest⟩ := left
    obtain ⟨page, found⟩ := Option.isSome_iff_exists.mp some_page
    have taken : allocPage a = some ({ a with
        heap := { a.heap with g := (allocPages a.heap.g zoneNormal 1).1 }
        pages := page :: a.pages }, page) := by
      unfold allocPage
      generalize allocPages a.heap.g zoneNormal 1 = r at found
      obtain ⟨g, q⟩ := r
      cases found
      rfl
    obtain ⟨a', run, blocks, heap⟩ := @ih { a with
      heap := { a.heap with g := (allocPages a.heap.g zoneNormal 1).1 }
      pages := page :: a.pages } rest
    exact ⟨a', .cons (.allocPages taken) run, blocks, heap⟩

/-- The first process of a machine of which the other pages are taken before: there is no page
for its heap. There are objects in the caches still. -/
theorem started_last_page : ∃ s address pdpt pdt p k₀, Start machine128 s ∧
    s.task.mm.startBrk = brkStart ∧ s.task.mm.endBrk = brkStart ∧
    Built k₀ s.kernel address s.task.mm.pgd pdpt pdt [p] (codeEntry p) ∧
    Placed s.task.mm.pgd pdpt pdt ∧ (allocPages s.kernel.account.heap.g zoneNormal 1).2 = none ∧
    Stocked s.kernel.account.heap 1 3 1 0 := by
  let t : Task := ⟨0, pfVfork, ⟨0, 0, 0, 0⟩⟩
  have vfork : t.flags &&& pfVfork ≠ 0 := by decide
  have booted : Sound (bootInUse machine128) [] [] ⟨slabInit (initMemory machine128), [], []⟩ :=
    ⟨(BootPages.boot_ready HeapRuns.machine128_bootable).inv, trivial⟩
  have mm : 1 + 1 ≤ (slabInit (initMemory machine128)).totalFree 2 := by decide +kernel
  have table : 3 + 3 ≤ (slabInit (initMemory machine128)).totalFree 7 := by decide +kernel
  have stack : 1 ≤ (slabInit (initMemory machine128)).totalFree 10 := by decide +kernel
  obtain ⟨n, left, none_left⟩ : ∃ n, PagesLeft (slabInit (initMemory machine128)).g (n + 1) ∧
      (allocPages (drained (n + 1) (slabInit (initMemory machine128)).g) zoneNormal 1).2 = none :=
    ⟨46, by decide +kernel, by decide +kernel⟩
  generalize at_boot : slabInit (initMemory machine128) = h at booted mm table stack left none_left
  obtain ⟨a, run, blocks, heap⟩ := @drain_run n ⟨h, [], []⟩ (fewer_left left)
  have held := @invariant_of_step _ _ _ (Sound (bootInUse machine128) [] [])
    (fun _ _ _ => other_step_sound) _ _ _ run booted
  have sound : Sound (bootInUse machine128) a.pages a.blocks ⟨a.heap, [], []⟩ := sound_swap held
  have stocked : Stocked a.heap (1 + 1) (3 + 3) 1 (0 + 1) := by
    rw [heap]
    exact ⟨mm, table, stack, drained_left left⟩
  obtain ⟨k, t', exec, _, rest, _⟩ := @do_execve_some _ _ _ ⟨⟨a.heap, [], []⟩, fun _ => 0, 0⟩
    1 3 1 0 t (fun _ => 0) sound vfork stocked
  obtain ⟨address, pdpt, pdt, p, kept, built, taken⟩ := exec_built sound vfork stocked exec
  obtain ⟨_, _, start, last⟩ := do_execve_spec sound (fun plain => absurd plain vfork) exec
  refine ⟨⟨k, t', a.blocks, a.pages⟩, address, pdpt, pdt, p, _, ?_, start, last, built,
    built.placed kept, ?_, rest⟩
  · subst at_boot
    exact ⟨⟨_, a, _, _, t, _, run, vfork, exec, rfl, rfl⟩⟩
  · dsimp only
    rw [taken, heap]
    dsimp only
    rw [← drained_succ]
    exact none_left

theorem end_of_heap_lost : ∃ s k', Start machine128 s ∧ s.task.mm.endBrk = brkStart ∧
    sysBrkMm s.kernel s.task.mm (brkStart + 1) =
      some (k', { s.task.mm with endBrk := minusENOMEM }, minusENOMEM) ∧
    Short s.kernel s.task.mm (brkStart + 1) ∧ ¬ Unharmed s.kernel s.task.mm (brkStart + 1) := by
  obtain ⟨s, address, pdpt, pdt, p, k₀, start, first, last, built, placed, none_left, _⟩ :=
    started_last_page
  have empty : codeEntry p 6 = 0 := Function.update_of_ne (by decide) ..
  have refused : linkPage s.kernel (slot pdt 6) = none := by
    unfold linkPage allocPage
    generalize allocPages s.kernel.account.heap.g zoneNormal 1 = r at none_left
    obtain ⟨g, q⟩ := r
    cases none_left
    rfl
  have mapped : mapPage s.kernel s.task.mm.pgd brkStart = some (s.kernel, false) := by
    rw [map_first built placed empty, refused]
  have target : page2MAlign (brkStart + 1) = brkStart + pageSize := by decide
  have one : pagesIn (brkStart + pageSize - brkStart) = 1 := by decide
  have short : Short s.kernel s.task.mm (brkStart + 1) := by
    refine ⟨by rw [target]; decide, by rw [target, last]; decide, ?_⟩
    rw [target, last, one]
    rintro ⟨k', mapped', -⟩
    rw [mapped] at mapped'
    cases mapped'
  have looped : brkLoop s.kernel s.task.mm.pgd 1 brkStart = some (s.kernel, none) := by
    rw [brkLoop, mapped]
    rfl
  have call : sysBrkMm s.kernel s.task.mm (brkStart + 1) =
      some (s.kernel, { s.task.mm with endBrk := minusENOMEM }, minusENOMEM) := by
    unfold sysBrkMm doBrkMm
    dsimp only
    rw [target, last, if_neg (by decide), if_neg (by decide), one, looped]
    rfl
  exact ⟨s, s.kernel, start, last, call, short, short_harms short⟩

end AddressSpace
