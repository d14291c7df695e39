import Q2os.FormatScanner

/- What one directive does to the state of vsprintf: it ends, and it stays within the format. -/
namespace Printk
open ByteMemory Fat32
open StateRuns

structure Scanned (n : Nat) (s s' : Scan) : Prop where
  forward : s.fmt ≤ s'.fmt
  within : s'.fmt ≤ n
  seen : ∀ i ∈ s'.seen, i ∈ s.seen ∨ i ≤ n
  str : s'.str = s.str
  taken : s.taken ≤ s'.taken
  memory : s'.memory = s.memory

/- The part is there if its first byte has a property, and nothing is done otherwise. -/
structure Part (n : Nat) (here : Bool) (s s' : Scan) : Prop extends Scanned n s s' where
  present : here = true → s.fmt < s'.fmt
  absent : here = false → s'.fmt = s.fmt ∧ s'.taken = s.taken

def isFlag (c : UInt8) : Bool := c = 0x2d || c = 0x2b || c = 0x20 || c = 0x23 || c = 0x30

section parts
variable {format : Nat → UInt8} {args : Nat → BitVec 64} {n : Nat} {s s' s'' : Scan}

theorem scanned_refl (within : s.fmt ≤ n) : Scanned n s s where
  forward := Nat.le_refl _
  within := within
  seen _ looked := Or.inl looked
  str := rfl
  taken := Nat.le_refl _
  memory := rfl

theorem Scanned.trans (first : Scanned n s s') (second : Scanned n s' s'') : Scanned n s s'' where
  forward := Nat.le_trans first.forward second.forward
  within := second.within
  seen i looked := (second.seen i looked).elim (first.seen i) Or.inr
  str := second.str.trans first.str
  taken := Nat.le_trans first.taken second.taken
  memory := second.memory.trans first.memory

section rules
variable {α : Type} {m : Vs α} {goal : α → Scan → Prop}

theorem ends_peek {f : UInt8 → Vs α} (kept : Scanned n s s')
    (rest : ∀ t, Scanned n s t → t.fmt = s'.fmt → t.taken = s'.taken → Ends (f (format s'.fmt)) t goal) :
    Ends (peek format >>= f) s' goal := by
  apply ends_bind
  refine ⟨_, _, rfl, rest _ (kept.trans ?_) rfl rfl⟩
  exact { scanned_refl kept.within with
    seen := fun i looked => (List.mem_cons.mp looked).elim (fun here => Or.inr (here ▸ kept.within)) Or.inl }

theorem ends_advance {f : Unit → Vs α} (kept : Scanned n s s') (less : s'.fmt < n)
    (rest : ∀ t, Scanned n s t → t.fmt = s'.fmt + 1 → t.taken = s'.taken → Ends (f ()) t goal) :
    Ends (advance >>= f) s' goal := by
  apply ends_bind
  refine ⟨_, _, rfl, rest _ (kept.trans ?_) rfl rfl⟩
  exact { scanned_refl kept.within with forward := Nat.le_succ _, within := less }

theorem ends_vaArg {f : BitVec 64 → Vs α} (kept : Scanned n s s')
    (rest : ∀ t, Scanned n s t → t.fmt = s'.fmt → t.taken = s'.taken + 1 →
      Ends (f (args s'.taken)) t goal) :
    Ends (vaArg args >>= f) s' goal := by
  apply ends_bind
  refine ⟨_, _, rfl, rest _ (kept.trans ?_) rfl rfl⟩
  exact { scanned_refl kept.within with taken := Nat.le_succ _ }

end rules

theorem digit_solid {c : UInt8} (digit : isDigit c = true) : c ≠ 0 := by
  rintro rfl
  cases digit

theorem skipAtoi_ends (string : Terminated format n) (rounds : Nat) (i : Int)
    (within : s.fmt ≤ n) (enough : n < rounds + s.fmt) :
    Ends (skipAtoi format rounds i) s fun _ s' => Part n (isDigit (format s.fmt)) s s' := by
  induction rounds generalizing s i with
  | zero => omega
  | succ rounds ih =>
    rw [skipAtoi]
    refine ends_peek (scanned_refl within) fun s₁ kept₁ at₁ taken₁ => ?_
    by_cases digit : isDigit (format s.fmt) = true
    · rw [if_pos digit]
      have less := string.lt within (digit_solid digit)
      refine ends_peek kept₁ fun s₂ kept₂ at₂ _ => ?_
      refine ends_advance kept₂ (by omega) fun s₃ kept₃ at₃ _ => ?_
      refine ends_mono (ih _ kept₃.within (by omega)) fun _ s' rest => ?_
      have passed := rest.forward
      exact ⟨kept₃.trans rest.toScanned, fun _ => by omega,
        fun none_ => by rw [digit] at none_; cases none_⟩
    · rw [if_neg digit]
      exact ends_pure ⟨kept₁, fun some_ => absurd some_ digit, fun _ => ⟨at₁, taken₁⟩⟩

theorem fieldWidth_ends (string : Terminated format n) (rounds : Nat) (flags : Flags)
    (within : s.fmt ≤ n) (enough : n < rounds + s.fmt) :
    Ends (fieldWidth format args rounds flags) s fun _ s' =>
      Part n (isDigit (format s.fmt) || format s.fmt = 0x2a) s s' := by
  rw [fieldWidth]
  refine ends_peek (scanned_refl within) fun s₁ kept₁ at₁ taken₁ => ?_
  by_cases digit : isDigit (format s.fmt) = true
  · rw [if_pos digit, digit, Bool.true_or]
    refine ends_then (skipAtoi_ends string rounds 0 kept₁.within (by omega)) fun width s₂ part => ?_
    rw [at₁, digit] at part
    have passed := part.present rfl
    exact ends_pure ⟨kept₁.trans part.toScanned, fun _ => by omega, fun none_ => by cases none_⟩
  · rw [if_neg digit]
    refine ends_peek kept₁ fun s₂ kept₂ at₂ taken₂ => ?_
    rw [at₁, Bool.eq_false_of_not_eq_true digit, Bool.false_or]
    by_cases star : format s.fmt = 0x2a
    · have less := string.lt within (by rw [star]; decide)
      rw [if_pos star, decide_eq_true star]
      refine ends_advance kept₂ (by omega) fun s₃ kept₃ at₃ _ => ?_
      refine ends_vaArg kept₃ fun s₄ kept₄ at₄ _ => ?_
      have all : Part n true s s₄ := ⟨kept₄, fun _ => by omega, fun none_ => by cases none_⟩
      exact ends_ite (fun _ => ends_pure all) (fun _ => ends_pure all)
    · rw [if_neg star, decide_eq_false star]
      exact ends_pure ⟨kept₂, fun some_ => (by cases some_), fun _ => ⟨by omega, by omega⟩⟩

theorem precisionValue_ends (string : Terminated format n) (rounds : Nat)
    (within : s.fmt ≤ n) (enough : n < rounds + s.fmt) :
    Ends (precisionValue format args rounds) s fun _ s' => Scanned n s s' := by
  rw [precisionValue]
  refine ends_peek (scanned_refl within) fun s₁ kept₁ at₁ taken₁ => ?_
  refine ends_ite (fun digit => ?_) (fun digit => ?_)
  · refine ends_mono (skipAtoi_ends string rounds 0 kept₁.within (by omega)) fun _ s₂ part => ?_
    exact kept₁.trans part.toScanned
  · refine ends_peek kept₁ fun s₂ kept₂ at₂ taken₂ => ?_
    refine ends_ite (fun star => ?_) (fun _ => ends_pure kept₂)
    have less := string.lt kept₁.within (by rw [star]; decide)
    refine ends_advance kept₂ (by omega) fun s₃ kept₃ at₃ _ => ?_
    exact ends_vaArg kept₃ fun s₄ kept₄ at₄ _ => ends_pure kept₄

theorem precisionOf_ends (string : Terminated format n) (rounds : Nat)
    (within : s.fmt ≤ n) (enough : n < rounds + s.fmt) :
    Ends (precisionOf format args rounds) s fun _ s' => Part n (format s.fmt = 0x2e) s s' := by
  rw [precisionOf]
  refine ends_peek (scanned_refl within) fun s₁ kept₁ at₁ taken₁ => ?_
  by_cases dot : format s.fmt = 0x2e
  · have less := string.lt within (by rw [dot]; decide)
    rw [if_pos dot, decide_eq_true dot]
    refine ends_advance kept₁ (by omega) fun s₂ kept₂ at₂ taken₂ => ?_
    refine ends_then (precisionValue_ends string rounds kept₂.within (by omega)) fun i s₃ more => ?_
    have passed := more.forward
    exact ends_pure ⟨kept₂.trans more, fun _ => by omega, fun none_ => by cases none_⟩
  · rw [if_neg dot, decide_eq_false dot]
    exact ends_pure ⟨kept₁, fun some_ => (by cases some_), fun _ => ⟨at₁, taken₁⟩⟩

theorem qualifierOf_ends (string : Terminated format n) (within : s.fmt ≤ n) :
    Ends (qualifierOf format) s fun _ s' => Part n (isQualifier (format s.fmt)) s s' := by
  rw [qualifierOf]
  refine ends_peek (scanned_refl within) fun s₁ kept₁ at₁ taken₁ => ?_
  by_cases letter : isQualifier (format s.fmt) = true
  · have less := string.lt within (by intro none_; rw [none_] at letter; cases letter)
    rw [if_pos letter, letter]
    refine ends_peek kept₁ fun s₂ kept₂ at₂ _ => ?_
    refine ends_advance kept₂ (by omega) fun s₃ kept₃ at₃ _ => ?_
    exact ends_pure ⟨kept₃, fun _ => by omega, fun none_ => by cases none_⟩
  · rw [if_neg letter]
    exact ends_pure ⟨kept₁, fun some_ => absurd some_ letter, fun _ => ⟨at₁, taken₁⟩⟩

/- The jump back to repeat after each flag stays below the end, which is no flag. -/
theorem repeatFlags_ends (string : Terminated format n) (rounds : Nat) (flags : Flags)
    (below : s.fmt < n) (enough : n < rounds + s.fmt) :
    Ends (repeatFlags format rounds flags) s fun _ s' =>
      Scanned n s s' ∧ s.fmt < s'.fmt ∧ s'.taken = s.taken ∧
        (isFlag (format (s.fmt + 1)) = true ↔ s.fmt + 1 < s'.fmt) := by
  induction rounds generalizing s flags with
  | zero => omega
  | succ rounds ih =>
    rw [repeatFlags]
    refine ends_advance (scanned_refl (Nat.le_of_lt below)) below fun s₁ kept₁ at₁ taken₁ => ?_
    refine ends_peek kept₁ fun s₂ kept₂ at₂ taken₂ => ?_
    rw [at₁]
    have again : isFlag (format (s.fmt + 1)) = true → ∀ flags',
        Ends (repeatFlags format rounds flags') s₂ fun _ s' =>
          Scanned n s s' ∧ s.fmt < s'.fmt ∧ s'.taken = s.taken ∧
            (isFlag (format (s.fmt + 1)) = true ↔ s.fmt + 1 < s'.fmt) := by
      intro flag flags'
      have less := string.lt below (by intro none_; rw [none_] at flag; cases flag)
      refine ends_mono (ih flags' (by omega) (by omega)) fun _ s' rest => ?_
      obtain ⟨kept, passed, same, _⟩ := rest
      exact ⟨kept₂.trans kept, by omega, by omega, fun _ => by omega, fun _ => flag⟩
    refine ends_ite (fun c => again (by rw [c]; rfl) _) fun c₁ => ?_
    refine ends_ite (fun c => again (by rw [c]; rfl) _) fun c₂ => ?_
    refine ends_ite (fun c => again (by rw [c]; rfl) _) fun c₃ => ?_
    refine ends_ite (fun c => again (by rw [c]; rfl) _) fun c₄ => ?_
    refine ends_ite (fun c => again (by rw [c]; rfl) _) fun c₅ => ?_
    have none_ : ¬ isFlag (format (s.fmt + 1)) = true := by
      simp only [isFlag, c₁, c₂, c₃, c₄, c₅, decide_false, Bool.or_false]
      exact Bool.false_ne_true
    exact ends_pure ⟨kept₂, by omega, by omega, fun flag => absurd flag none_, fun more => by omega⟩

end parts

/- c s o p x X d i u n and %, the characters that the second switch has cases for. -/
def isConversion (c : UInt8) : Bool :=
  c = 0x63 || c = 0x73 || c = 0x6f || c = 0x70 || c = 0x78 || c = 0x58 || c = 0x64 || c = 0x69 ||
    c = 0x75 || c = 0x6e || c = 0x25

structure Wrote (s s' : Scan) : Prop where
  fmt : s'.fmt = s.fmt
  seen : s'.seen = s.seen
  taken : s'.taken = s.taken

/- What the second switch leaves of a state. Only the last cases leave the arguments alone. -/
structure Converted (format : Nat → UInt8) (n : Nat) (s s' : Scan) : Prop where
  next : s'.fmt + 1 = if format s.fmt = 0 then s.fmt else s.fmt + 1
  seen : ∀ i ∈ s'.seen, i ∈ s.seen ∨ i ≤ n
  taken : s.taken ≤ s'.taken
  idle : s'.taken = s.taken → s'.memory = s.memory ∧
    (s'.str = s.str ++ [0x25] ∧ (format s.fmt = 0x25 ∨ format s.fmt = 0) ∨
      s'.str = s.str ++ [0x25, format s.fmt] ∧ isConversion (format s.fmt) = false ∧ format s.fmt ≠ 0)
  plain : isConversion (format s.fmt) = false → s'.taken = s.taken

section conversions
variable {format : Nat → UInt8} {args : Nat → BitVec 64} {n : Nat} {s s' t : Scan}
  {flags : Flags} {width precision : Int}

theorem putNumber_ends (num : BitVec 64) {base : Nat} (valid : 2 ≤ base ∧ base ≤ 36) :
    Ends (putNumber num base width precision flags) s fun _ s' => Wrote s s' := by
  unfold putNumber number
  rw [dif_pos valid]
  exact ⟨_, _, rfl, ⟨rfl, rfl, rfl⟩⟩

theorem unsignedArg_ends (qualifier : Option UInt8) :
    Ends (unsignedArg args qualifier) s fun _ s' => s' = { s with taken := s.taken + 1 } :=
  ⟨_, _, rfl, rfl⟩

theorem signedArg_ends (qualifier : Option UInt8) :
    Ends (signedArg args qualifier) s fun _ s' => s' = { s with taken := s.taken + 1 } :=
  ⟨_, _, rfl, rfl⟩

theorem ends_argument {α : Type} {m : Vs α} {f : α → Vs Unit} {c : UInt8} (kept : Scanned n s t)
    (here : t.fmt = s.fmt) (same : format s.fmt = c) (some_ : c ≠ 0) (argument : isConversion c = true)
    (fetched : Ends m t fun _ s' => s' = { t with taken := t.taken + 1 })
    (wrote : ∀ a s', Ends (f a) s' fun _ s'' => Wrote s' s'') :
    Ends (m >>= f) t fun _ s' => Converted format n s s' := by
  refine ends_then fetched fun a s₁ next => ?_
  refine ends_mono (wrote a s₁) fun _ s₂ rest => ?_
  subst next
  have taken := kept.taken
  have more : s₂.taken = t.taken + 1 := rest.taken
  exact {
    next := by rw [same, if_neg some_, rest.fmt, here]
    seen := rest.seen ▸ kept.seen
    taken := by omega
    idle := fun same => by omega
    plain := fun none_ => by rw [same, argument] at none_; cases none_ }

theorem conversion_ends (within : s.fmt ≤ n) (behind : 0 < s.fmt)
    (qualifier : Option UInt8) :
    Ends (conversion format args flags width precision qualifier) s fun _ s' =>
      Converted format n s s' := by
  rw [conversion]
  refine ends_peek (scanned_refl within) fun t kept here taken => ?_
  have fetched : Ends (vaArg args) t fun _ s' => s' = { t with taken := t.taken + 1 } := ⟨_, _, rfl, rfl⟩
  have octal : 2 ≤ 8 ∧ 8 ≤ 36 := by decide
  have decimal : 2 ≤ 10 ∧ 10 ≤ 36 := by decide
  have hexadecimal : 2 ≤ 16 ∧ 16 ≤ 36 := by decide
  refine ends_ite (fun c => ends_argument kept here c (by decide) rfl fetched fun _ _ =>
    ⟨_, _, rfl, ⟨rfl, rfl, rfl⟩⟩) fun c₁ => ?_
  refine ends_ite (fun c => ends_argument kept here c (by decide) rfl fetched fun _ _ =>
    ⟨_, _, rfl, ⟨rfl, rfl, rfl⟩⟩) fun c₂ => ?_
  refine ends_ite (fun c => ends_argument kept here c (by decide) rfl (unsignedArg_ends qualifier)
    fun w _ => putNumber_ends w octal) fun c₃ => ?_
  refine ends_ite (fun c => ends_argument kept here c (by decide) rfl fetched fun w _ =>
    ends_ite (fun _ => putNumber_ends w hexadecimal) (fun _ => putNumber_ends w hexadecimal)) fun c₄ => ?_
  refine ends_ite (fun c => ends_argument kept here c (by decide) rfl (unsignedArg_ends qualifier)
    fun w _ => putNumber_ends w hexadecimal) fun c₅ => ?_
  refine ends_ite (fun c => ends_argument kept here c (by decide) rfl (unsignedArg_ends qualifier)
    fun w _ => putNumber_ends w hexadecimal) fun c₆ => ?_
  refine ends_ite (fun c => ?_) fun c₇ => ?_
  · obtain c | c := c <;>
      exact ends_argument kept here c (by decide) rfl (signedArg_ends qualifier)
        fun w _ => putNumber_ends w decimal
  refine ends_ite (fun c => ends_argument kept here c (by decide) rfl (signedArg_ends qualifier)
    fun w _ => putNumber_ends w decimal) fun c₈ => ?_
  refine ends_ite (fun c => ends_argument kept here c (by decide) rfl fetched fun _ _ =>
    ⟨_, _, rfl, ⟨rfl, rfl, rfl⟩⟩) fun c₉ => ?_
  refine ends_ite (fun c => ?_) fun c₁₀ => ?_
  · exact ⟨_, _, rfl, {
      next := by rw [c, if_neg (by decide)]; exact congrArg (· + 1) here
      seen := kept.seen
      taken := kept.taken
      idle := fun _ => ⟨kept.memory, Or.inl ⟨congrArg (· ++ [0x25]) kept.str, Or.inl c⟩⟩
      plain := fun none_ => by rw [c] at none_; cases none_ }⟩
  obtain ⟨c₇, c₇'⟩ := not_or.mp c₇
  have other : isConversion (format s.fmt) = false := by
    simp only [isConversion, c₁, c₂, c₃, c₄, c₅, c₆, c₇, c₇', c₈, c₉, c₁₀, decide_false, Bool.or_false]
  have text : t.str ++ [0x25] = s.str ++ [0x25] := congrArg (· ++ [0x25]) kept.str
  have looked : ∀ i ∈ t.fmt :: t.seen, i ∈ s.seen ∨ i ≤ n := by
    intro i member
    cases member with
    | head => exact Or.inr kept.within
    | tail _ member => exact kept.seen i member
  refine ends_bind ⟨_, _, rfl, ends_bind ⟨_, _, rfl, ends_ite (fun some_ => ?_) (fun none_ => ?_)⟩⟩
  · have some' : format t.fmt ≠ 0 := some_
    refine ends_bind ⟨_, _, rfl, _, _, rfl, ?_⟩
    rw [here] at some'
    exact {
      next := by rw [if_neg some']; exact congrArg (· + 1) here
      seen := fun i member => by
        cases member with
        | head => exact Or.inr kept.within
        | tail _ member => exact looked i member
      taken := kept.taken
      idle := fun _ => ⟨kept.memory, Or.inr ⟨by
        show t.str ++ [0x25] ++ [format t.fmt] = s.str ++ [0x25, format s.fmt]
        rw [text, here, List.append_assoc]
        rfl, other, some'⟩⟩
      plain := fun _ => taken }
  · have ended : format t.fmt = 0 := Decidable.not_not.mp none_
    rw [here] at ended
    refine ⟨_, _, rfl, ?_⟩
    exact {
      next := by
        rw [if_pos ended]
        show t.fmt - 1 + 1 = s.fmt
        omega
      seen := looked
      taken := kept.taken
      idle := fun _ => ⟨kept.memory, Or.inl ⟨text, Or.inr ended⟩⟩
      plain := fun _ => taken }

end conversions

/- The characters that are anything but printed behind a %. -/
def isDirective (c : UInt8) : Bool :=
  isFlag c || (isDigit c || c = 0x2a) || c = 0x2e || isQualifier c || isConversion c

/- The % at an offset, if there is one, is only printed. -/
def InertAt (format : Nat → UInt8) (i : Nat) : Prop :=
  format i = 0x25 → isDirective (format (i + 1)) = false

instance (format : Nat → UInt8) (i : Nat) : Decidable (InertAt format i) :=
  inferInstanceAs (Decidable (_ → _))

/- The text that a part of a scan writes if it fetches nothing, against the part of the format
   that it passes: it is that part itself where the part is inert, and shorter elsewhere. -/
structure Printed (format : Nat → UInt8) (s s' : Scan) (passed : Nat) (inert : Prop) : Prop where
  memory : s'.memory = s.memory
  text : ∃ w, s'.str = s.str ++ w ∧ w.length ≤ passed ∧ (w.length = passed → inert) ∧
    (inert → w = slice format s.fmt passed)

structure Directed (format : Nat → UInt8) (n : Nat) (s s' : Scan) : Prop where
  forward : s.fmt ≤ s'.fmt
  below : s'.fmt < n
  seen : ∀ i ∈ s'.seen, i ∈ s.seen ∨ i ≤ n
  taken : s.taken ≤ s'.taken
  idle : s'.taken = s.taken → Printed format s s' (s'.fmt + 1 - s.fmt) (InertAt format s.fmt)
  plain : InertAt format s.fmt → s'.taken = s.taken ∧ s'.fmt ≤ s.fmt + 1 ∧
    (s'.fmt = s.fmt + 1 → format (s.fmt + 1) ≠ 0x25)

section directives
variable {format : Nat → UInt8} {args : Nat → BitVec 64} {n : Nat} {s s' t : Scan}

theorem slice_one (format : Nat → UInt8) (i : Nat) : slice format i 1 = [format i] := rfl

theorem slice_two (format : Nat → UInt8) (i : Nat) : slice format i 2 = [format i, format (i + 1)] := rfl

theorem converted_directed (percent : format s.fmt = 0x25) (string : Terminated format n)
    (scanned : Scanned n s t) (passed : s.fmt < t.fmt)
    (still : t.fmt = s.fmt + 1 → isDirective (format (s.fmt + 1)) = isConversion (format (s.fmt + 1)))
    (plain : isDirective (format (s.fmt + 1)) = false → t.fmt = s.fmt + 1 ∧ t.taken = s.taken)
    (converted : Converted format n t s') : Directed format n s s' := by
  have within := scanned.within
  have next := converted.next
  have below : s'.fmt < n := by
    by_cases ended : format t.fmt = 0
    · rw [if_pos ended] at next
      omega
    · rw [if_neg ended] at next
      have less := string.lt within ended
      omega
  have inert_iff : InertAt format s.fmt ↔ isDirective (format (s.fmt + 1)) = false :=
    ⟨fun inert => inert percent, fun none_ _ => none_⟩
  refine ⟨?_, below, fun i looked => (converted.seen i looked).elim (scanned.seen i) Or.inr,
    Nat.le_trans scanned.taken converted.taken, fun same => ?_, fun inert => ?_⟩
  · split at next <;> omega
  · have fetched := scanned.taken
    have fetched' := converted.taken
    obtain ⟨memory, written⟩ := converted.idle (by omega)
    refine ⟨memory.trans scanned.memory, ?_⟩
    rw [scanned.str] at written
    obtain ⟨str, last⟩ | ⟨str, other, some_⟩ := written
    · refine ⟨_, str, ?_, fun long => ?_, fun inert => ?_⟩
      · show 1 ≤ _
        split at next <;> omega
      · have long' : 1 = s'.fmt + 1 - s.fmt := long
        obtain last | last := last
        · rw [if_neg (by rw [last]; decide)] at next
          omega
        · rw [if_pos last] at next
          have here : t.fmt = s.fmt + 1 := by omega
          rw [here] at last
          rw [inert_iff, last]
          rfl
      · rw [inert_iff] at inert
        obtain ⟨here, _⟩ := plain inert
        obtain last | last := last
        · rw [← here, last] at inert
          cases inert
        · rw [if_pos last] at next
          rw [show s'.fmt + 1 - s.fmt = 1 by omega, slice_one, percent]
    · rw [if_neg some_] at next
      refine ⟨_, str, ?_, fun long => ?_, fun inert => ?_⟩
      · show 2 ≤ _
        omega
      · have long' : 2 = s'.fmt + 1 - s.fmt := long
        have here : t.fmt = s.fmt + 1 := by omega
        rw [inert_iff, still here, ← here, other]
      · rw [inert_iff] at inert
        obtain ⟨here, _⟩ := plain inert
        rw [show s'.fmt + 1 - s.fmt = 2 by omega, slice_two, percent, here]
  · rw [inert_iff] at inert
    obtain ⟨here, same⟩ := plain inert
    have other : isConversion (format t.fmt) = false := by
      rw [here]
      rw [isDirective, Bool.or_eq_false_iff] at inert
      exact inert.2
    refine ⟨(converted.plain other).trans same, ?_, fun _ percent' => ?_⟩
    · split at next <;> omega
    · rw [← here] at percent'
      rw [percent'] at other
      cases other

theorem directive_ends (args : Nat → BitVec 64) (string : Terminated format n) (rounds : Nat)
    (below : s.fmt < n) (enough : n < rounds + s.fmt) :
    Ends (directive format args rounds) s fun _ s' => Directed format n s s' := by
  rw [directive]
  refine ends_peek (scanned_refl (Nat.le_of_lt below)) fun s₀ kept₀ at₀ taken₀ => ?_
  refine ends_ite (fun plain => ?_) (fun percent => ?_)
  · refine ends_peek kept₀ fun s₁ kept₁ at₁ taken₁ => ?_
    rw [at₀] at at₁ ⊢
    refine ⟨_, _, rfl, ?_⟩
    exact {
      forward := kept₁.forward
      below := by show s₁.fmt < n; omega
      seen := kept₁.seen
      taken := kept₁.taken
      idle := fun _ => ⟨kept₁.memory, [format s.fmt], congrArg (· ++ [format s.fmt]) kept₁.str,
        by show 1 ≤ s₁.fmt + 1 - s.fmt; omega, fun _ here => absurd here plain, fun _ => by
          rw [show s₁.fmt + 1 - s.fmt = 1 by omega, slice_one]⟩
      plain := fun _ => ⟨by show s₁.taken = s.taken; omega, by show s₁.fmt ≤ s.fmt + 1; omega,
        fun more => absurd (show s₁.fmt = s.fmt + 1 from more) (by omega)⟩ }
  · have percent' : format s.fmt = 0x25 := Decidable.not_not.mp percent
    have flags := repeatFlags_ends string rounds Flags.none (s := s₀) (by omega) (by omega)
    refine ends_then flags fun type s₁ scanned₁ => ?_
    obtain ⟨more₁, passed₁, taken₁, flag⟩ := scanned₁
    have kept₁ := kept₀.trans more₁
    refine ends_then (fieldWidth_ends string rounds type kept₁.within (by omega)) fun width s₂ part₂ => ?_
    have kept₂ := kept₁.trans part₂.toScanned
    have passed₂ := part₂.forward
    refine ends_then (precisionOf_ends string rounds kept₂.within (by omega)) fun precision s₃ part₃ => ?_
    have kept₃ := kept₂.trans part₃.toScanned
    have passed₃ := part₃.forward
    refine ends_then (qualifierOf_ends string kept₃.within) fun qualifier s₄ part₄ => ?_
    have kept₄ := kept₃.trans part₄.toScanned
    have passed₄ := part₄.forward
    refine ends_mono (conversion_ends kept₄.within (by omega) qualifier) fun _ s' converted => ?_
    rw [at₀] at flag
    refine converted_directed percent' string kept₄ (by omega) (fun here => ?_) (fun none_ => ?_) converted
    · have noFlag : isFlag (format (s.fmt + 1)) = false := by
        rw [← Bool.not_eq_true, flag]
        omega
      have noWidth : (isDigit (format s₁.fmt) || decide (format s₁.fmt = 0x2a)) = false := by
        rw [← Bool.not_eq_true]
        intro width
        have passed := part₂.present width
        omega
      have noDot : decide (format s₂.fmt = 0x2e) = false := by
        rw [← Bool.not_eq_true]
        intro dot
        have passed := part₃.present dot
        omega
      have noQualifier : isQualifier (format s₃.fmt) = false := by
        rw [← Bool.not_eq_true]
        intro letter
        have passed := part₄.present letter
        omega
      rw [show s₁.fmt = s.fmt + 1 by omega] at noWidth
      rw [show s₂.fmt = s.fmt + 1 by omega] at noDot
      rw [show s₃.fmt = s.fmt + 1 by omega] at noQualifier
      rw [isDirective, noFlag, noWidth, noDot, noQualifier]
      rfl
    · simp only [isDirective, Bool.or_eq_false_iff] at none_
      obtain ⟨⟨⟨⟨noFlag, noWidth⟩, noDot⟩, noQualifier⟩, _⟩ := none_
      have at₁ : s₁.fmt = s.fmt + 1 := by
        have first : ¬ s.fmt + 1 < s₁.fmt := fun more => by
          rw [flag.mpr more] at noFlag
          cases noFlag
        omega
      obtain ⟨at₂, taken₂⟩ := part₂.absent (by rw [at₁, noWidth.1, noWidth.2]; rfl)
      obtain ⟨at₃, taken₃⟩ := part₃.absent (by rw [at₂, at₁]; exact noDot)
      obtain ⟨at₄, taken₄⟩ := part₄.absent (by rw [at₃, at₂, at₁]; exact noQualifier)
      exact ⟨by omega, by omega⟩

end directives

end Printk
