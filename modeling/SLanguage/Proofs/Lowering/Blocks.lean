import SLanguage.Lowering.Rules
import SLanguage.Proofs.Lowering.Drawing
import SLanguage.Proofs.Machine.Passages

/-! What blocks do. Passing the block of a rule leaves the values that the instruction
leaves, but for the work variables that the rule has drawn, and goes on where the
instruction would. Until then only instructions of the block run, so the region of a
passage can be any that the block lies in. -/

namespace SLanguage.Lowering

section Effects

variable (answering : Answering) (v w : Variable) (l : Label) {s : Store}

theorem effect_increase : (increase v).effect answering s =
    pure { store := s.set v (min (s.get v + 1) Store.largest) } := rfl

theorem effect_decrease : (decrease v).effect answering s =
    pure { store := s.set v (s.get v - 1) } := rfl

theorem effect_neutral : (neutral v).effect answering s = pure { store := s } := rfl

theorem effect_zero : (zero v).effect answering s = pure { store := s.set v 0 } := rfl

theorem effect_assign : (assign v w).effect answering s =
    pure { store := s.set v (s.get w) } := rfl

theorem effect_goto : (goto l).effect answering s = pure { store := s, jump := l } := rfl

theorem effect_labelled (i : Instruction) :
    (labelled l i).effect answering s = i.effect answering s := rfl

variable {v}

theorem effect_jumpNotZero (ne : s.get v ≠ 0) :
    (jumpNotZero v l).effect answering s = pure { store := s, jump := l } := by
  simp [Instruction.effect, jumpNotZero, ne]

theorem effect_jumpNotZero_of_zero (eq : s.get v = 0) :
    (jumpNotZero v l).effect answering s = pure { store := s } := by
  simp [Instruction.effect, jumpNotZero, eq]

theorem effect_jumpZero (eq : s.get v = 0) :
    (jumpZero v l).effect answering s = pure { store := s, jump := l } := by
  simp [Instruction.effect, jumpZero, eq]

theorem effect_jumpZero_of_ne (ne : s.get v ≠ 0) :
    (jumpZero v l).effect answering s = pure { store := s } := by
  simp [Instruction.effect, jumpZero, ne]

end Effects

/-- Passing the code at an index goes on at another one, once it leaves its region, and leaves
the values of a store, except in scratch variables. -/
def Does (answering : Answering) (p : Program) (region : Nat → Prop) (start : Nat) (s : Store)
    (next? : Option Nat) (scratch : List Variable) (target : Store) : Prop :=
  ∃ n s', 0 < n ∧ Passes answering p region n (some start) s next? s' ∧
    ∀ w ∉ scratch, s'.get w = target.get w

section Rules

variable {answering : Answering} {p : Program} {region : Nat → Prop} {start : Nat}
  {next? : Option Nat}

theorem Does.mono {s target : Store} {scratch scratch' : List Variable}
    (does : Does answering p region start s next? scratch target) (subset : scratch ⊆ scratch') :
    Does answering p region start s next? scratch' target := by
  obtain ⟨n, s', pos, passed, values⟩ := does
  exact ⟨n, s', pos, passed, fun w clean => values w fun mem => clean (subset mem)⟩

theorem does_instruction {i : Instruction} {s : Store} {e : Effect}
    (offers : p.Offers region start [i]) (ran : i.effect answering s = pure e)
    (ends : p.follow start e.jump = .ok next?) : Does answering p region start s next? [] e.store :=
  ⟨1, e.store, Nat.one_pos, offers.passes answering (j := 0) rfl ran ends, fun _ _ => rfl⟩

def clearingBlock (v : Variable) (loop : Label) : List Instruction :=
  [labelled loop (decrease v), jumpNotZero v loop]

theorem does_clearing (assembled : p.Assembled) {v : Variable} {n : Serial}
    (offers : p.Offers region start (clearingBlock v (.numbered n)))
    (ends : p.follow (start + 1) .empty = .ok next?) (s : Store) :
    Does answering p region start s next? [] (s.set v 0) := by
  induction value : s.get v using Nat.strongRecOn generalizing s with
  | _ x ih =>
    have first : Passes answering p region 1 (some start) s (some (start + 1))
        (s.set v (s.get v - 1)) :=
      offers.passes answering (j := 0) rfl (effect_decrease answering v) (offers.falls rfl)
    by_cases done : s.get v - 1 = 0
    · have second : Passes answering p region 1 (some (start + 1)) (s.set v (s.get v - 1)) next?
          (s.set v (s.get v - 1)) :=
        offers.passes answering rfl
          (effect_jumpNotZero_of_zero answering _ (by simpa using done)) ends
      refine ⟨2, _, by decide, first.trans second, fun w _ => ?_⟩
      rw [done]
    · have back : p.follow (start + 1) (.numbered n) = .ok (some start) :=
        offers.leads assembled (j := 0) rfl rfl _
      have second : Passes answering p region 1 (some (start + 1)) (s.set v (s.get v - 1))
          (some start) (s.set v (s.get v - 1)) :=
        offers.passes answering rfl (effect_jumpNotZero answering _ (by simpa using done)) back
      obtain ⟨n, s', -, rest, values⟩ := ih (s.get v - 1) (by omega) _ (Store.get_set_self ..)
      refine ⟨2 + n, s', by omega, (first.trans second).trans rest, fun w clean => ?_⟩
      rw [values w clean, Store.get_set, Store.get_set, Store.get_set]
      split <;> rfl

def jumpingBlock (z : Variable) (target : Label) : List Instruction :=
  [increase z, jumpNotZero z target]

theorem does_jumping {z : Variable} {target : Label}
    (offers : p.Offers region start (jumpingBlock z target))
    (ends : p.follow (start + 1) target = .ok next?) (s : Store) :
    Does answering p region start s next? [z] s := by
  have first := offers.passes answering (j := 0) rfl (effect_increase answering z (s := s))
    (offers.falls rfl)
  have raised : (s.set z (min (s.get z + 1) Store.largest)).get z ≠ 0 := by
    rw [Store.get_set_self]
    unfold Store.largest
    omega
  have second := offers.passes answering (j := 1) rfl
    (effect_jumpNotZero answering target raised) ends
  refine ⟨2, _, by decide, first.trans second, fun w clean => ?_⟩
  exact Store.get_set_of_ne _ _ fun eq => clean (List.mem_singleton.2 eq.symm)

def copyingBlock (v w : Variable) (away back done : Label) (z : Variable) : List Instruction :=
  [zero v,
    jumpNotZero w away,
    goto done,
    labelled away (decrease w),
    increase z,
    jumpNotZero w away,
    labelled back (decrease z),
    increase v,
    increase w,
    jumpNotZero z back,
    labelled done (neutral v)]

section Copying

variable {v w z : Variable} {l₁ l₂ l₃ : Serial}

/-- The first loop moves `w` to `z`. -/
theorem passes_away (answering : Answering) (assembled : p.Assembled)
    (offers : p.Offers region start
      (copyingBlock v w (.numbered l₁) (.numbered l₂) (.numbered l₃) z))
    (ne : z ≠ w) {s : Store} (some : s.get w ≠ 0) (room : s.get z + s.get w ≤ Store.largest) :
    ∃ n s', Passes answering p region n (.some (start + 3)) s (.some (start + 6)) s' ∧
      s'.get w = 0 ∧ s'.get z = s.get z + s.get w ∧ ∀ u, u ≠ w → u ≠ z → s'.get u = s.get u := by
  generalize value : s.get w = x at some room
  induction x generalizing s with
  | zero => exact absurd rfl some
  | succ x ih =>
    set s₁ := s.set w (s.get w - 1) with named₁
    set s₂ := s₁.set z (min (s₁.get z + 1) Store.largest) with named₂
    have first := offers.passes answering (j := 3) rfl (effect_decrease answering w (s := s))
      (offers.falls rfl)
    have second := offers.passes answering (j := 4) rfl (effect_increase answering z (s := s₁))
      (offers.falls rfl)
    have w₂ : s₂.get w = x := by
      rw [named₂, Store.get_set_of_ne _ _ ne, named₁, Store.get_set_self, value]
      rfl
    have z₂ : s₂.get z = s.get z + 1 := by
      rw [named₂, Store.get_set_self, named₁, Store.get_set_of_ne _ _ ne.symm]
      omega
    have others : ∀ u, u ≠ w → u ≠ z → s₂.get u = s.get u := by
      intro u ne_w ne_z
      rw [named₂, Store.get_set_of_ne _ _ ne_z.symm, named₁, Store.get_set_of_ne _ _ ne_w.symm]
    by_cases done : x = 0
    · subst done
      have third := offers.passes answering (j := 5) rfl
        (effect_jumpNotZero_of_zero answering (.numbered l₁) w₂) (offers.falls rfl)
      exact ⟨3, s₂, (first.trans second).trans third, w₂, z₂, others⟩
    · have third := offers.passes answering (j := 5) rfl
        (effect_jumpNotZero answering (.numbered l₁) (w₂ ▸ done))
        (offers.leads assembled (j := 3) rfl rfl _)
      obtain ⟨n, s', rest, w', z', others'⟩ := ih w₂ done (by omega)
      refine ⟨1 + 1 + 1 + n, s', ((first.trans second).trans third).trans rest, w', by omega,
        fun u ne_w ne_z => ?_⟩
      rw [others' u ne_w ne_z, others u ne_w ne_z]

/-- The second loop moves `z` back to `w` and counts `v` up. -/
theorem passes_back (answering : Answering) (assembled : p.Assembled)
    (offers : p.Offers region start
      (copyingBlock v w (.numbered l₁) (.numbered l₂) (.numbered l₃) z))
    (ne_v : z ≠ v) (ne_w : z ≠ w) (ne : v ≠ w) {s : Store} (some : s.get z ≠ 0)
    (room_v : s.get v + s.get z ≤ Store.largest) (room_w : s.get w + s.get z ≤ Store.largest) :
    ∃ n s', Passes answering p region n (.some (start + 6)) s (.some (start + 10)) s' ∧
      s'.get z = 0 ∧ s'.get v = s.get v + s.get z ∧ s'.get w = s.get w + s.get z ∧
      ∀ u, u ≠ v → u ≠ w → u ≠ z → s'.get u = s.get u := by
  generalize value : s.get z = x at some room_v room_w
  induction x generalizing s with
  | zero => exact absurd rfl some
  | succ x ih =>
    set s₁ := s.set z (s.get z - 1) with named₁
    set s₂ := s₁.set v (min (s₁.get v + 1) Store.largest) with named₂
    set s₃ := s₂.set w (min (s₂.get w + 1) Store.largest) with named₃
    have first := offers.passes answering (j := 6) rfl (effect_decrease answering z (s := s))
      (offers.falls rfl)
    have second := offers.passes answering (j := 7) rfl (effect_increase answering v (s := s₁))
      (offers.falls rfl)
    have third := offers.passes answering (j := 8) rfl (effect_increase answering w (s := s₂))
      (offers.falls rfl)
    have z₃ : s₃.get z = x := by
      rw [named₃, Store.get_set_of_ne _ _ ne_w.symm, named₂, Store.get_set_of_ne _ _ ne_v.symm,
        named₁, Store.get_set_self, value]
      rfl
    have v₃ : s₃.get v = s.get v + 1 := by
      rw [named₃, Store.get_set_of_ne _ _ ne.symm, named₂, Store.get_set_self, named₁,
        Store.get_set_of_ne _ _ ne_v]
      omega
    have w₃ : s₃.get w = s.get w + 1 := by
      rw [named₃, Store.get_set_self, named₂, Store.get_set_of_ne _ _ ne, named₁,
        Store.get_set_of_ne _ _ ne_w]
      omega
    have others : ∀ u, u ≠ v → u ≠ w → u ≠ z → s₃.get u = s.get u := by
      intro u u_v u_w u_z
      rw [named₃, Store.get_set_of_ne _ _ u_w.symm, named₂, Store.get_set_of_ne _ _ u_v.symm,
        named₁, Store.get_set_of_ne _ _ u_z.symm]
    have until_test := (first.trans second).trans third
    by_cases done : x = 0
    · subst done
      have fourth := offers.passes answering (j := 9) rfl
        (effect_jumpNotZero_of_zero answering (.numbered l₂) z₃) (offers.falls rfl)
      exact ⟨_, s₃, until_test.trans fourth, z₃, v₃, w₃, others⟩
    · have fourth := offers.passes answering (j := 9) rfl
        (effect_jumpNotZero answering (.numbered l₂) (z₃ ▸ done))
        (offers.leads assembled (j := 6) rfl rfl _)
      obtain ⟨n, s', rest, z', v', w', others'⟩ := ih z₃ done (by omega) (by omega)
      refine ⟨_, s', (until_test.trans fourth).trans rest, z', by omega, by omega,
        fun u u_v u_w u_z => ?_⟩
      rw [others' u u_v u_w u_z, others u u_v u_w u_z]

/-- Copying leaves its scratch variable as empty as it was. -/
theorem does_copying (assembled : p.Assembled)
    (offers : p.Offers region start
      (copyingBlock v w (.numbered l₁) (.numbered l₂) (.numbered l₃) z))
    (ends : p.follow (start + 10) .empty = .ok next?)
    (ne_v : z ≠ v) (ne_w : z ≠ w) (ne : v ≠ w) {s : Store} (clear : s.get z = 0)
    (bounded : s.get w ≤ Store.largest) :
    Does answering p region start s next? [] (s.set v (s.get w)) := by
  have first := offers.passes answering (j := 0) rfl (effect_zero answering v (s := s))
    (offers.falls rfl)
  set s₁ := s.set v 0 with named
  have w₁ : s₁.get w = s.get w := Store.get_set_of_ne _ _ ne
  have z₁ : s₁.get z = 0 := (Store.get_set_of_ne _ _ ne_v.symm).trans clear
  have v₁ : s₁.get v = 0 := Store.get_set_self ..
  by_cases none : s.get w = 0
  · have second := offers.passes answering (j := 1) rfl
      (effect_jumpNotZero_of_zero answering (.numbered l₁) (w₁.trans none)) (offers.falls rfl)
    have third := offers.passes answering (j := 2) rfl
      (effect_goto answering (.numbered l₃) (s := s₁)) (offers.leads assembled (j := 10) rfl rfl _)
    have fourth := offers.passes answering (j := 10) rfl (effect_neutral answering v (s := s₁)) ends
    refine ⟨_, s₁, by decide, ((first.trans second).trans third).trans fourth, fun u _ => ?_⟩
    rw [named, none]
  · have second := offers.passes answering (j := 1) rfl
      (effect_jumpNotZero answering (.numbered l₁) (w₁ ▸ none))
      (offers.leads assembled (j := 3) rfl rfl _)
    obtain ⟨n₂, s₂, away, w₂, z₂, others₂⟩ :=
      passes_away answering assembled offers ne_w (w₁ ▸ none) (by omega)
    have v₂ : s₂.get v = 0 := (others₂ v ne ne_v.symm).trans v₁
    obtain ⟨n₃, s₃, back, z₃, v₃, w₃, others₃⟩ :=
      passes_back answering assembled offers ne_v ne_w ne (s := s₂)
        (by omega) (by omega) (by omega)
    have last := offers.passes answering (j := 10) rfl (effect_neutral answering v (s := s₃)) ends
    refine ⟨_, s₃, ?_, (((first.trans second).trans away).trans back).trans last, fun u _ => ?_⟩
    · omega
    · rw [Store.get_set]
      by_cases u_v : v = u
      · subst u_v
        rw [if_pos rfl]
        omega
      · rw [if_neg u_v]
        by_cases u_w : u = w
        · subst u_w
          omega
        · by_cases u_z : u = z
          · subst u_z
            omega
          · rw [others₃ u (Ne.symm u_v) u_w u_z, others₂ u u_w u_z, named,
              Store.get_set_of_ne _ _ u_v]

end Copying

theorem does_countingUp {v : Variable} {k : UInt64}
    (offers : p.Offers region start (countingUp v k))
    (ends : p.follow (start + k.toNat) .empty = .ok next?) (s : Store) :
    Does answering p region start s next? [] (s.set v (min k.toNat Store.largest)) := by
  -- what has been passed after the first so many increments
  have counted : ∀ j ≤ k.toNat, ∀ next?, p.follow (start + j) .empty = .ok next? →
      ∃ s', Passes answering p region (j + 1) (some start) s next? s' ∧
        ∀ w, s'.get w = (s.set v (min j Store.largest)).get w := by
    intro j
    induction j with
    | zero =>
      intro _ next? ends
      exact ⟨_, offers.passes answering (j := 0) rfl (effect_zero answering v (s := s)) ends,
        fun w => by rw [Nat.zero_min]⟩
    | succ j ih =>
      intro le next? ends
      have at_next : (countingUp v k)[j + 1]? = some (increase v) := by
        rw [countingUp, List.getElem?_cons_succ, List.getElem?_replicate,
          if_pos (Nat.lt_of_succ_le le)]
      obtain ⟨s', passed, values⟩ := ih (by omega) _ (offers.falls at_next)
      refine ⟨_, passed.trans (offers.passes answering at_next
        (effect_increase answering v (s := s')) ends), fun w => ?_⟩
      change (s'.set v (min (s'.get v + 1) Store.largest)).get w = _
      rw [Store.get_set, Store.get_set, values v, values w, Store.get_set_self, Store.get_set]
      split
      · omega
      · rfl
  obtain ⟨s', passed, values⟩ := counted k.toNat (Nat.le_refl _) next? ends
  exact ⟨_, s', by omega, passed, fun w _ => values w⟩

def testingZeroBlock (v : Variable) (done target : Label) : List Instruction :=
  [jumpNotZero v done, goto target, labelled done (neutral .result)]

/-- A jump from the last but one instruction of a block may also fall through. -/
theorem lands {block : List Instruction} (offers : p.Offers region start block) {j : Nat}
    {i : Instruction} {target done : Label} {s : Store} (at_j : block[j]? = some i)
    (at_last : block[j + 1]? = some (labelled done (neutral .result)))
    (ran : i.effect answering s = pure { store := s, jump := target })
    (ends : p.follow (start + (j + 1)) target = .ok next?) :
    ∃ n, Passes answering p region n (some (start + j)) s next? s := by
  by_cases falls : target = .empty
  · subst falls
    have first := offers.passes answering at_j ran (offers.falls at_last)
    have second := offers.passes answering at_last
      ((effect_labelled answering done _).trans (effect_neutral answering .result (s := s))) ends
    exact ⟨_, first.trans second⟩
  · rw [Program.follow_of_ne_empty falls _ (start + j)] at ends
    exact ⟨1, offers.passes answering at_j ran ends⟩

theorem does_testingZero (assembled : p.Assembled) {v : Variable} {n : Serial} {target : Label}
    (offers : p.Offers region start (testingZeroBlock v (.numbered n) target)) (s : Store)
    (ends : p.follow (start + 2) (if s.get v = 0 then target else .empty) = .ok next?) :
    Does answering p region start s next? [] s := by
  by_cases isZero : s.get v = 0
  · rw [if_pos isZero] at ends
    have first := offers.passes answering (j := 0) rfl
      (effect_jumpNotZero_of_zero answering (.numbered n) isZero) (offers.falls rfl)
    obtain ⟨m, landed⟩ :=
      lands offers (j := 1) rfl rfl (effect_goto answering target (s := s)) ends
    exact ⟨_, s, by omega, first.trans landed, fun _ _ => rfl⟩
  · rw [if_neg isZero] at ends
    have first := offers.passes answering (j := 0) rfl
      (effect_jumpNotZero answering (.numbered n) isZero)
      (offers.leads assembled (j := 2) rfl rfl _)
    have second := offers.passes answering (j := 2) rfl
      (effect_neutral answering .result (s := s)) ends
    exact ⟨_, s, by decide, first.trans second, fun _ _ => rfl⟩

def countingDown (z : Variable) (done : Label) (k : Nat) : List Instruction :=
  (List.replicate k [jumpZero z done, decrease z]).flatten

theorem length_countingDown (z : Variable) (done : Label) (k : Nat) :
    (countingDown z done k).length = 2 * k := by
  simp [countingDown, Nat.mul_comm]

/-- Counting down ends early if the variable is used up before. -/
theorem passes_countingDown (answering : Answering) {z : Variable} {l : Label} {d k : Nat}
    {last : Instruction} {rest : List Instruction}
    (offers : p.Offers region start (countingDown z l k ++ last :: rest))
    (leads : ∀ j, p.follow j l = .ok (some d)) (s : Store) :
    ∃ n s', (∀ w ≠ z, s'.get w = s.get w) ∧
      if s.get z < k then Passes answering p region n (some start) s (some d) s'
      else s'.get z = s.get z - k ∧
        Passes answering p region n (some start) s (some (start + 2 * k)) s' := by
  induction k generalizing start s with
  | zero => exact ⟨0, s, fun _ _ => rfl, by simpa using Passes.refl _ s⟩
  | succ k ih =>
    have shape : countingDown z l (k + 1) ++ last :: rest =
        [jumpZero z l, decrease z] ++ (countingDown z l k ++ last :: rest) := by
      simp [countingDown, List.replicate_succ]
    rw [shape] at offers
    obtain ⟨-, tail⟩ := offers.append
    by_cases isZero : s.get z = 0
    · refine ⟨1, s, fun _ _ => rfl, ?_⟩
      rw [if_pos (by omega)]
      exact offers.passes answering (j := 0) rfl (effect_jumpZero answering l isZero) (leads _)
    · have first := offers.passes answering (j := 0) rfl
        (effect_jumpZero_of_ne answering l isZero) (offers.falls rfl)
      obtain ⟨i, next⟩ : ∃ i, (countingDown z l k ++ last :: rest)[0]? = some i := by
        cases k <;> exact ⟨_, rfl⟩
      have second := offers.passes answering (j := 1) rfl (effect_decrease answering z (s := s))
        (offers.falls next)
      obtain ⟨n, s', others, passed⟩ := ih tail (s.set z (s.get z - 1))
      refine ⟨1 + 1 + n, s', fun w ne => ?_, ?_⟩
      · rw [others w ne, Store.get_set_of_ne _ _ ne.symm]
      · rw [Store.get_set_self] at passed
        by_cases less : s.get z < k + 1
        · rw [if_pos (by omega)] at passed
          rw [if_pos less]
          exact (first.trans second).trans passed
        · rw [if_neg (by omega)] at passed
          rw [if_neg less]
          obtain ⟨left, passed⟩ := passed
          refine ⟨by omega, ?_⟩
          have place : start + 2 * (k + 1) = start + 2 + 2 * k := by omega
          rw [place]
          exact (first.trans second).trans passed

def testingConstantBlock (v : Variable) (k : Nat) (done target : Label) (z : Variable) :
    List Instruction :=
  assign z v :: (countingDown z done k ++
    [jumpNotZero z done, goto target, labelled done (neutral .result)])

theorem does_testingConstant (assembled : p.Assembled) {v z : Variable} {k : Nat} {n : Serial}
    {target : Label}
    (offers : p.Offers region start (testingConstantBlock v k (.numbered n) target z)) (s : Store)
    (ends : p.follow (start + (2 * k + 3)) (if s.get v = k then target else .empty) =
      .ok next?) :
    Does answering p region start s next? [z] s := by
  have counting := offers.tail
  obtain ⟨-, testing⟩ := counting.append
  rw [length_countingDown] at testing
  have place : start + (2 * k + 3) = start + 1 + 2 * k + 2 := by omega
  rw [place] at ends
  obtain ⟨i, next⟩ : ∃ i, (testingConstantBlock v k (.numbered n) target z)[1]? = some i := by
    cases k <;> exact ⟨_, rfl⟩
  have first := offers.passes answering (j := 0) rfl (effect_assign answering z v (s := s))
    (offers.falls next)
  obtain ⟨m, s', others, counted⟩ := passes_countingDown answering counting
    (testing.leads assembled (j := 2) rfl rfl) (s.set z (s.get v))
  have same : ∀ w ∉ [z], s'.get w = s.get w := by
    intro w clean
    have ne : w ≠ z := fun eq => clean (List.mem_singleton.2 eq)
    rw [others w ne, Store.get_set_of_ne _ _ ne.symm]
  have last (ends : p.follow (start + 1 + 2 * k + 2) .empty = .ok next?) :=
    testing.passes answering (j := 2) rfl (effect_neutral answering .result (s := s')) ends
  rw [Store.get_set_self] at counted
  by_cases less : s.get v < k
  · rw [if_pos less] at counted
    rw [if_neg (by omega)] at ends
    exact ⟨_, s', by omega, (first.trans counted).trans (last ends), same⟩
  · rw [if_neg less] at counted
    obtain ⟨left, counted⟩ := counted
    by_cases equal : s.get v = k
    · rw [if_pos equal] at ends
      have used : s'.get z = 0 := by omega
      have tested := testing.passes answering (j := 0) rfl
        (effect_jumpNotZero_of_zero answering (.numbered n) used) (testing.falls rfl)
      obtain ⟨m', landed⟩ :=
        lands testing (j := 1) rfl rfl (effect_goto answering target (s := s')) ends
      exact ⟨_, s', by omega, ((first.trans counted).trans tested).trans landed, same⟩
    · rw [if_neg equal] at ends
      have unused : s'.get z ≠ 0 := by omega
      have tested := testing.passes answering (j := 0) rfl
        (effect_jumpNotZero answering (.numbered n) unused)
        (testing.leads assembled (j := 2) rfl rfl _)
      exact ⟨_, s', by omega, ((first.trans counted).trans tested).trans (last ends), same⟩

def testingVariableBlock (v w : Variable) (done loop last target : Label) (a b : Variable) :
    List Instruction :=
  [assign a v,
    assign b w,
    labelled loop (jumpZero a last),
    jumpZero b done,
    decrease a,
    decrease b,
    goto loop,
    labelled last (jumpZero b target),
    labelled done (neutral .result)]

section TestingVariable

variable {v w a b : Variable} {l₁ l₂ l₃ : Serial} {target : Label}

/-- The loop finds out whether the copies are equal. -/
theorem passes_comparing (answering : Answering) (assembled : p.Assembled)
    (offers : p.Offers region start
      (testingVariableBlock v w (.numbered l₁) (.numbered l₂) (.numbered l₃) target a b))
    (ne : a ≠ b) (s : Store)
    (ends : p.follow (start + 8) (if s.get a = s.get b then target else .empty) = .ok next?) :
    ∃ n s', Passes answering p region n (some (start + 2)) s next? s' ∧
      ∀ u, u ≠ a → u ≠ b → s'.get u = s.get u := by
  have last {s : Store} (ends : p.follow (start + 8) .empty = .ok next?) :=
    offers.passes answering (j := 8) rfl (effect_neutral answering .result (s := s)) ends
  generalize value : s.get a = x at ends
  induction x generalizing s with
  | zero =>
    have first := offers.passes answering (j := 2) rfl
      (effect_jumpZero answering (.numbered l₃) value) (offers.leads assembled (j := 7) rfl rfl _)
    by_cases equal : s.get b = 0
    · rw [if_pos equal.symm] at ends
      obtain ⟨n, landed⟩ := lands offers (j := 7) rfl rfl
        ((effect_labelled answering (.numbered l₃) _).trans
          (effect_jumpZero answering target equal)) ends
      exact ⟨_, s, first.trans landed, fun _ _ _ => rfl⟩
    · rw [if_neg (Ne.symm equal)] at ends
      have second := offers.passes answering (j := 7) rfl
        (effect_jumpZero_of_ne answering target equal) (offers.falls rfl)
      exact ⟨_, s, (first.trans second).trans (last ends), fun _ _ _ => rfl⟩
  | succ x ih =>
    have some : s.get a ≠ 0 := by omega
    have first := offers.passes answering (j := 2) rfl
      (effect_jumpZero_of_ne answering (.numbered l₃) some) (offers.falls rfl)
    by_cases none : s.get b = 0
    · rw [if_neg (by omega)] at ends
      have second := offers.passes answering (j := 3) rfl
        (effect_jumpZero answering (.numbered l₁) none) (offers.leads assembled (j := 8) rfl rfl _)
      exact ⟨_, s, (first.trans second).trans (last ends), fun _ _ _ => rfl⟩
    · have second := offers.passes answering (j := 3) rfl
        (effect_jumpZero_of_ne answering (.numbered l₁) none) (offers.falls rfl)
      set s₁ := s.set a (s.get a - 1) with named₁
      set s₂ := s₁.set b (s₁.get b - 1) with named₂
      have third := offers.passes answering (j := 4) rfl (effect_decrease answering a (s := s))
        (offers.falls rfl)
      have fourth := offers.passes answering (j := 5) rfl (effect_decrease answering b (s := s₁))
        (offers.falls rfl)
      have fifth := offers.passes answering (j := 6) rfl
        (effect_goto answering (.numbered l₂) (s := s₂))
        (offers.leads assembled (j := 2) rfl rfl _)
      have a₂ : s₂.get a = x := by
        rw [named₂, Store.get_set_of_ne _ _ ne.symm, named₁, Store.get_set_self, value]
        rfl
      have b₂ : s₂.get b = s.get b - 1 := by
        rw [named₂, Store.get_set_self, named₁, Store.get_set_of_ne _ _ ne]
      have same : (x = s₂.get b) = (x + 1 = s.get b) := propext (by omega)
      obtain ⟨n, s', rest, others⟩ := ih s₂ a₂ (by simpa only [same] using ends)
      refine ⟨_, s', ((((first.trans second).trans third).trans fourth).trans fifth).trans rest,
        fun u u_a u_b => ?_⟩
      rw [others u u_a u_b, named₂, Store.get_set_of_ne _ _ u_b.symm, named₁,
        Store.get_set_of_ne _ _ u_a.symm]

theorem does_testingVariable (assembled : p.Assembled)
    (offers : p.Offers region start
      (testingVariableBlock v w (.numbered l₁) (.numbered l₂) (.numbered l₃) target a b))
    (ne : a ≠ b) (ne_w : a ≠ w) (s : Store)
    (ends : p.follow (start + 8) (if s.get v = s.get w then target else .empty) = .ok next?) :
    Does answering p region start s next? [a, b] s := by
  set s₁ := s.set a (s.get v) with named₁
  set s₂ := s₁.set b (s₁.get w) with named₂
  have first := offers.passes answering (j := 0) rfl (effect_assign answering a v (s := s))
    (offers.falls rfl)
  have second := offers.passes answering (j := 1) rfl (effect_assign answering b w (s := s₁))
    (offers.falls rfl)
  have a₂ : s₂.get a = s.get v := by
    rw [named₂, Store.get_set_of_ne _ _ ne.symm, named₁, Store.get_set_self]
  have b₂ : s₂.get b = s.get w := by
    rw [named₂, Store.get_set_self, named₁, Store.get_set_of_ne _ _ ne_w]
  obtain ⟨n, s', rest, others⟩ := passes_comparing answering assembled offers ne s₂
    (by rw [a₂, b₂]; exact ends)
  refine ⟨_, s', ?_, (first.trans second).trans rest, fun u clean => ?_⟩
  · omega
  · have u_a : u ≠ a := fun eq => clean (by simp [eq])
    have u_b : u ≠ b := fun eq => clean (by simp [eq])
    rw [others u u_a u_b, named₂, Store.get_set_of_ne _ _ u_b.symm, named₁,
      Store.get_set_of_ne _ _ u_a.symm]

end TestingVariable

def testingCallBlock (v : Variable) (c : Call) (target : Label) (z : Variable) :
    List Instruction :=
  [{ subject := z, op := .quote c }, { subject := v, op := .jumpEqualVariable z target }]

theorem does_testingCall {v z : Variable} {c : Call} {target : Label}
    (offers : p.Offers region start (testingCallBlock v c target z)) (ne : z ≠ v) {s : Store}
    {y : Yield} (answered : answering c s = pure y)
    (ends : p.follow (start + 1) (if s.get v = y.value then target else .empty) = .ok next?) :
    Does answering p region start s next? [z] s := by
  have quoted : ({ subject := z, op := .quote c } : Instruction).effect answering s =
      pure { store := s.set z y.value, callCycles := y.cycles } := by
    rw [Instruction.effect_of_call rfl, answered]
    rfl
  have first := offers.passes answering (j := 0) rfl quoted (offers.falls rfl)
  have tested : ({ subject := v, op := .jumpEqualVariable z target } : Instruction).effect
      answering (s.set z y.value) =
      pure { store := s.set z y.value, jump := if s.get v = y.value then target else .empty } := by
    simp [Instruction.effect, Store.get_set_of_ne _ _ ne]
  have second := offers.passes answering (j := 1) rfl tested ends
  refine ⟨2, _, by decide, first.trans second, fun w clean => ?_⟩
  exact Store.get_set_of_ne _ _ fun eq => clean (List.mem_singleton.2 eq.symm)

theorem stalls_testingCall {v z : Variable} {c : Call} {target : Label} {limit : Nat}
    (holds : p.Holds start (testingCallBlock v c target z)) {s : Store}
    (unfinished : answering c s = .unfinished) : Stalls answering p limit (some start) s := by
  obtain ⟨q, at_start, subject, op, -⟩ := holds 0 _ rfl
  refine .of_instruction at_start ?_
  rw [Instruction.effect_of_call (c := c) (by rw [op]; rfl), unfinished]
  rfl

end Rules

end SLanguage.Lowering
