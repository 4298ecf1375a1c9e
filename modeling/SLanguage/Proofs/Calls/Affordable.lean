import SLanguage.Proofs.Calls.Answers

/-! Calls that can be afforded. All functions that such a call comes to are known, and
there are names enough to splice each of them. -/

namespace SLanguage

/-- There are callees, and names enough for them, for the call and for all calls in its
arguments and in the bodies below it. In particular those calls form no cycle. -/
inductive Call.Affordable (functions : Functions) : Call → Prop where
  | intro {c : Call} {callee : Program} (found : functions.find? c.function = some callee)
      (names : c.namesNeeded callee ≤ Serial.last)
      (arguments : ∀ inner : Call, .call inner.function inner.arguments ∈ c.arguments →
        Affordable functions inner)
      (body : ∀ i inner, i ∈ callee.instructions.toList → i.op.call? = some inner →
        Affordable functions inner) : Affordable functions c

/-- The evaluator has names enough for every callee that the call comes to enter. -/
def Evaluator.Affords (ev : Evaluator) (depth : Nat) (c : Call) (s : Store) : Prop :=
  ∀ last callee, ev.Enters (ev.depthLimit - depth) c s last callee →
    last.namesNeeded callee ≤ Serial.last

namespace Call.Affordable

theorem affords {ev : Evaluator} {c : Call} (affordable : c.Affordable ev.functions)
    (depth : Nat) (s : Store) : ev.Affords depth c s := by
  intro last callee enters
  generalize ev.depthLimit - depth = room at enters
  induction enters with
  | callee read found =>
    obtain ⟨known, names, -, -⟩ := affordable
    rwa [Option.some.inj (found.symm.trans known)]
  | argument parts read nested ih =>
    obtain ⟨-, -, arguments, -⟩ := affordable
    refine ih (arguments _ ?_)
    rw [parts]
    exact List.mem_append_right _ (List.mem_cons_self ..)
  | body read found leads next at_k calls nested ih =>
    obtain ⟨known, -, -, body⟩ := affordable
    obtain rfl := Option.some.inj (found.symm.trans known)
    exact ih (body _ _ (List.mem_of_getElem? (Array.getElem?_toList.trans at_k)) calls)

/-- Only the number of arguments matters, not their names. -/
theorem of_rename {functions : Functions} {c : Call} {var : Variable → Variable}
    (affordable : (c.rename var).Affordable functions) : c.Affordable functions := by
  generalize renamed : c.rename var = c' at affordable
  induction affordable generalizing c var with
  | intro found names arguments body argument_ih body_ih =>
    subst renamed
    rw [namesNeeded, length_arguments_rename] at names
    refine .intro found names (fun inner mem => ?_) body
    refine argument_ih (inner.rename var) ?_ rfl
    rw [rename, Argument.renameAll_eq_map]
    exact List.mem_map_of_mem mem

theorem rename {functions : Functions} {c : Call} (affordable : c.Affordable functions)
    (var : Variable → Variable) : (c.rename var).Affordable functions := by
  induction affordable with
  | @intro c callee found names arguments body argument_ih body_ih =>
    refine .intro found ?_ (fun inner mem => ?_) body
    · rwa [namesNeeded, length_arguments_rename]
    · obtain ⟨own, occurs, rfl⟩ := exists_of_mem_rename mem
      exact argument_ih own occurs

/-- A call that can be afforded fails only for want of room. -/
theorem failsWith {ev : Evaluator} (interpret : ev.strategy = .interpret)
    (assembled : ∀ f ∈ ev.functions.items, f.Assembled) (room : Nat) {c : Call}
    (affordable : c.Affordable ev.functions) (s : Store) :
    (ev.answer room c s).FailsWith fun e => ∃ f, e = .callDepthExceeded f ev.depthLimit := by
  refine Evaluator.answer_failsWith_of (fun _ => Affordable ev.functions) assembled ?_ ?_ ?_ ?_ ?_
    room affordable s
  · exact fun c _ => ⟨c.function, rfl⟩
  · rintro room c ⟨known, -, -, -⟩ unknown
    rw [unknown] at known
    cases known
  · exact fun inline => Strategy.noConfusion (interpret.symm.trans inline)
  · rintro room c inner ⟨-, -, arguments, -⟩ mem
    exact arguments inner mem
  · rintro room c callee i inner var ⟨known, -, -, body⟩ found mem calls
    obtain rfl := Option.some.inj (found.symm.trans known)
    exact (body i inner mem calls).rename var

end Call.Affordable

end SLanguage
