import Q2os.MappedPages

/- No process has a table twice in its page table, in whole runs. -/
namespace AddressSpace
open PageAllocator PageRuns Kmalloc KmallocSlabs KmallocSafety SlabInit PageRules SlabCache TableTree
  Run

variable {boot : Nat → Prop} {otherPages : List Nat} {otherBlocks : List (Nat × Nat)}
  {k k' : Kernel}

theorem root_unshared {memory : Words} {pgd : Nat}
    (empty : ∀ i < 256, memory (slot pgd i) = 0) : Unshared format memory pgd := by
  have fan : ∀ j < format.fan 0, memory (slot pgd j) = 0 := empty
  intro path path' t _ _ within within' first second
  rw [(walk_empty fan within first).1, (walk_empty fan within' second).1]

theorem exec_space_unshared {t : Task} {mm : Mm}
    (own : t.flags &&& pfVfork = 0 → Unshared format k.memory t.mm.pgd)
    (call : execSpace k t = some (k', mm)) : Unshared format k'.memory mm.pgd := by
  unfold execSpace at call
  split at call
  · obtain ⟨⟨k₁, address⟩, _, call⟩ := Option.bind_eq_some_iff.mp call
    obtain ⟨⟨k₂, pgd⟩, _, call⟩ := Option.bind_eq_some_iff.mp call
    cases call
    exact root_unshared fun i small => (exec_root k₂ pgd).clear i small
  · next plain =>
    cases call
    exact own (by simpa using plain)

theorem do_execve_unshared {t t' : Task} {image : Words}
    (sound : Sound boot otherPages otherBlocks k.account)
    (own : t.flags &&& pfVfork = 0 → ∃ level, Space k t.mm.pgd level)
    (alone : t.flags &&& pfVfork = 0 → Unshared format k.memory t.mm.pgd)
    (call : doExecve k t image = some (k', t')) : Unshared format k'.memory t'.mm.pgd := by
  obtain ⟨⟨k₁, mm⟩, first, call⟩ := Option.bind_eq_some_iff.mp call
  obtain ⟨sound₁, level₁, space₁⟩ := exec_space_spec sound own first
  have unshared₁ := exec_space_unshared alone first
  obtain ⟨⟨k₂, ok⟩, second, call⟩ := Option.bind_eq_some_iff.mp call
  obtain ⟨sound₂, level₂, space₂⟩ := map_page_spec sound₁ space₁ (by decide) second
  have unshared₂ := (map_page_exact sound₁ space₁ unshared₁ (by decide) second).1
  cases ok with
  | false => cases call
  | true =>
    obtain ⟨page, mapped, call⟩ := Option.bind_eq_some_iff.mp call
    cases call
    obtain ⟨_, p, held, rfl⟩ := mapping_page space₂ mapped
    refine unshared₂.frame format_ok space₂.tree space₂.pgd_listed ?_
    exact page_same sound₂ space₂ (List.mem_append_left _ held) fun a outside =>
      if_neg (by omega)

theorem brk_pages_unshared {pgd n i r : Nat} {level : Nat → List Nat}
    (sound : Sound boot otherPages otherBlocks k.account) (space : Space k pgd level)
    (unshared : Unshared format k.memory pgd) (call : brkPages k pgd n i = some (k', r)) :
    Unshared format k'.memory pgd := by
  induction n generalizing k i level with
  | zero =>
    cases call
    exact unshared
  | succ n ih =>
    rw [brkPages] at call
    split at call
    · next user =>
      obtain ⟨⟨k₁, ok⟩, mapped, call⟩ := Option.bind_eq_some_iff.mp call
      obtain ⟨sound₁, level₁, space₁⟩ := map_page_spec sound space user mapped
      have unshared₁ := (map_page_exact sound space unshared user mapped).1
      cases ok with
      | false =>
        cases call
        exact unshared₁
      | true => exact ih sound₁ space₁ unshared₁ call
    · cases call

theorem sys_brk_unshared {mm mm' : Mm} {brk r : Nat} {level : Nat → List Nat}
    (sound : Sound boot otherPages otherBlocks k.account) (space : Space k mm.pgd level)
    (unshared : Unshared format k.memory mm.pgd) (call : sysBrk k mm brk = some (k', mm', r)) :
    Unshared format k'.memory mm'.pgd := by
  unfold sysBrk at call
  dsimp only at call
  split at call
  · cases call
    exact unshared
  · split at call
    · cases call
      exact unshared
    · obtain ⟨⟨k₁, e⟩, grown, made⟩ := Option.map_eq_some_iff.mp call
      cases made
      exact brk_pages_unshared sound space unshared grown

theorem first_entry {memory : Words} {t u i w : Nat} (aligned : Aligned u)
    (entry : memory (slot t i) = if i = 0 then u + pageUserDir else 0)
    (walked : walk memory [i] t = some w) : i = 0 ∧ w = u := by
  rw [walk, entry] at walked
  by_cases zero : i = 0
  · rw [if_pos zero, walk] at walked
    split at walked
    · cases walked
    · cases walked
      exact ⟨zero, base_entry aligned (by decide)⟩
  · rw [if_neg zero, if_pos rfl] at walked
    cases walked

/- A space that copy_mm has made has one table a level. -/
theorem Built.unshared {k₀ : Kernel} {address pgd pdpt pdt : Nat} {fresh : List Nat}
    {last : Nat → Nat} (built : Built k₀ k address pgd pdpt pdt fresh last)
    (placed : Placed pgd pdpt pdt) : Unshared format k.memory pgd := by
  have first : ∀ i t, i < 256 → walk k.memory [i] pgd = some t → i = 0 ∧ t = pdpt :=
    fun i t small => first_entry (placed.aligned pdpt (by simp)) (built.root i small)
  have second : ∀ i t, i < 512 → walk k.memory [i] pdpt = some t → i = 0 ∧ t = pdt :=
    fun i t small => first_entry (placed.aligned pdt (by simp)) (built.second i small)
  have known : ∀ path t, path.length < 3 → Within format 0 path →
      walk k.memory path pgd = some t →
      path = [] ∧ t = pgd ∨ path = [0] ∧ t = pdpt ∨ path = [0, 0] ∧ t = pdt := by
    intro path t short within walked
    match path, short, within, walked with
    | [], _, _, walked =>
      cases walked
      exact Or.inl ⟨rfl, rfl⟩
    | [i], _, within, walked =>
      obtain ⟨rfl, rfl⟩ := first i t within.1 walked
      exact Or.inr (Or.inl ⟨rfl, rfl⟩)
    | [i, j], _, within, walked =>
      have cut : (walk k.memory [i] pgd).bind (walk k.memory [j]) = some t :=
        (walk_append k.memory [i] [j] pgd).symm.trans walked
      obtain ⟨u, there, rest⟩ := Option.bind_eq_some_iff.mp cut
      obtain ⟨rfl, rfl⟩ := first i u within.1 there
      obtain ⟨rfl, rfl⟩ := second j t within.2.1 rest
      exact Or.inr (Or.inr ⟨rfl, rfl⟩)
  have differ := placed.pgd_pdpt
  have differ' := placed.pgd_pdt
  have differ'' := placed.pdpt_pdt
  intro path path' t short short' within within' walked walked'
  rcases known path t short within walked with ⟨rfl, rfl⟩ | ⟨rfl, rfl⟩ | ⟨rfl, rfl⟩
  · rcases known path' _ short' within' walked' with ⟨rfl, same⟩ | ⟨rfl, same⟩ | ⟨rfl, same⟩
    · rfl
    · exact absurd same differ
    · exact absurd same differ'
  · rcases known path' _ short' within' walked' with ⟨rfl, same⟩ | ⟨rfl, same⟩ | ⟨rfl, same⟩
    · exact absurd same.symm differ
    · rfl
    · exact absurd same differ''
  · rcases known path' _ short' within' walked' with ⟨rfl, same⟩ | ⟨rfl, same⟩ | ⟨rfl, same⟩
    · exact absurd same.symm differ'
    · exact absurd same.symm differ''
    · rfl

theorem child_unshared {k₀ : Kernel} {mm mm' : Mm}
    (sound : Sound boot otherPages otherBlocks k₀.account) (call : copyMm k₀ mm = some (k', mm')) :
    Unshared format k'.memory mm'.pgd := by
  obtain ⟨pdpt, pdt, p, kept, cases⟩ := copy_mm_spec sound call
  rcases cases with ⟨_, copied, _⟩ | ⟨_, h, copied, _⟩
  · exact copied.built.unshared (copied.built.placed kept)
  · exact copied.built.unshared (copied.built.placed kept)

theorem written_same {s : System} {level : Nat → List Nat} {a word : Nat}
    (space : Space s.kernel s.task.mm.pgd level)
    (outside : ∀ t, (physToVirt t, tableBytes) ∈ s.kernel.account.blocks →
      a < t ∨ t + tableBytes ≤ a) :
    SameTables format level s.kernel.memory (setWord s a word).kernel.memory := by
  intro n deep t listed i small
  have wide := slot_outside (outside t (space.tables n deep t listed)) small
  exact Function.update_of_ne (Ne.symm wide) ..

def Alone (s : System) : Prop := Unshared format s.kernel.memory s.task.mm.pgd

/-- A step leaves the process with no shared table. -/
theorem step_alone {s s' : System} {e : Event} (ready : Ready boot s) (alone : Alone s)
    (step : Step s e s') : Alone s' := by
  obtain ⟨level, space⟩ := ready.space
  have framed : ∀ {memory : Words}, SameTables format level s.kernel.memory memory →
      Unshared format memory s.task.mm.pgd :=
    fun same => alone.frame format_ok space.tree space.pgd_listed same
  cases step with
  | exec call =>
    obtain ⟨sound, own⟩ := leave_ready ready
    have memory : (leave s).kernel.memory = s.kernel.memory := by
      unfold leave
      split <;> rfl
    exact do_execve_unshared sound own (fun _ => by rw [memory]; exact alone) call
  | brk call => exact sys_brk_unshared ready.sound space alone call
  | @write v o word q mapped inside =>
    obtain ⟨_, p, held, rfl⟩ := mapping_page space mapped
    refine framed (written_same space fun t table => ?_)
    have apart := (table_place ready.sound.toInv (List.mem_append_left _ table)).2 p
      (List.mem_append_left _ held)
    omega
  | forkParent call => exact framed (fork_same_tables ready.sound space call).2
  | forkChild call =>
    obtain ⟨k₀, sound, _, _, _, _, _, copied⟩ := do_fork_spec ready.sound space call
    have tree := child_unshared sound copied
    exact tree
  | @vforkChild k child call =>
    obtain ⟨_, memory, _, _, same⟩ := fork_taken ready.sound call (Or.inl rfl)
    have mm : child.mm = s.task.mm := same child rfl
    unfold Alone
    dsimp only
    rw [mm, memory]
    exact alone
  | forkNone call =>
    obtain ⟨_, memory, _⟩ := fork_taken ready.sound call (Or.inr rfl)
    unfold Alone
    dsimp only
    rw [memory]
    exact alone
  | other step => exact alone
  | store outside => exact framed (written_same space outside)

theorem start_alone {b : Machine} {s : System} (bootable : Bootable b) (start : Start b s) :
    Alone s := by
  obtain ⟨es, a, memory, initPgd, t, image, run, vfork, call, _, _⟩ := start.before
  have booted : Sound (bootInUse b) [] [] ⟨slabInit (initMemory b), [], []⟩ :=
    ⟨(BootPages.boot_ready bootable).inv, trivial⟩
  have held := @invariant_of_step _ _ _ (Sound (bootInUse b) [] [])
    (fun _ _ _ => other_step_sound) _ _ _ run booted
  have sound : Sound (bootInUse b) a.pages a.blocks ⟨a.heap, [], []⟩ := sound_swap held
  exact do_execve_unshared sound (fun plain => absurd plain vfork) (fun plain => absurd plain vfork)
    call

/-- In every run of a process its page table is a tree. -/
theorem run_alone {b : Machine} {s₀ s : System} {es : List Event} (bootable : Bootable b)
    (start : Start b s₀) (run : Steps Step s₀ es s) : Ready (bootInUse b) s ∧ Alone s := by
  have keep : ∀ s e t, Ready (bootInUse b) s ∧ Alone s → Step s e t →
      Ready (bootInUse b) t ∧ Alone t :=
    fun _ _ _ known step => ⟨step_ready known.1 step, step_alone known.1 known.2 step⟩
  exact @invariant_of_step _ _ _ (fun s => Ready (bootInUse b) s ∧ Alone s) keep _ _ _ run
    ⟨start_ready bootable start, start_alone bootable start⟩

end AddressSpace
