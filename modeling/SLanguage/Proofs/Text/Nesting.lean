import SLanguage.Functions
import SLanguage.Proofs.Text.Arguments

/-! Calls inside calls. The text of a call is an argument of another call, and it is read as the
call it was printed for as long as no comma or parenthesis stands in the name of the function. The
name of an outermost call may have such characters, the name of an inner call never has. -/

namespace SLanguage.Call

open ArgumentToken

variable {outer function arguments : String} {c : Call}

/-- The call of a function with one argument, which is a call. -/
def around (outer : String) (c : Call) : Call :=
  ⟨Text.trim outer, [.call c.function c.arguments]⟩

theorem function_around (outer : String) (c : Call) : (c.around outer).function = Text.trim outer :=
  rfl

theorem argumentList_around (outer : String) (c : Call) : (c.around outer).argumentList = c.toText :=
  rfl

theorem mem_functionsOf_around (outer : String) (c : Call) :
    c.function ∈ Argument.functionsOf (c.around outer).arguments :=
  List.mem_cons_self ..

/-- A function is named alike by a text and by the call that the text is read as. -/
theorem find?_function (read : parse function arguments = .ok c) (functions : Functions) :
    functions.find? c.function = functions.find? function := by
  rw [Catalog.find?, Catalog.find?, Text.key, Text.key, (parse_eq_ok_iff.1 read).2.1,
    Text.trim_trim]

theorem Readable.around (readable : c.Readable) (named : Text.trim outer ≠ "")
    (uncut : ∀ ch ∈ c.function.toList, ¬ IsCut ch) : (c.around outer).Readable where
  trimmed := Text.trim_trim outer
  named := named
  inner f mem := by
    obtain own | inside : f = c.function ∨ f ∈ Argument.functionsOf c.arguments := by
      simpa [Call.around, Argument.functionsOf, Argument.functions] using mem
    · exact own ▸ ⟨readable.trimmed, readable.named, uncut⟩
    · exact readable.inner f inside

theorem parse_toText (readable : c.Readable) (named : Text.trim outer ≠ "")
    (uncut : ∀ ch ∈ c.function.toList, ¬ IsCut ch) :
    parse outer c.toText = .ok (c.around outer) := by
  have printed := parse_argumentList (readable.around named uncut)
  rwa [function_around, parse_trim, argumentList_around] at printed

/-- A name of an inner call has no commas and no parentheses. -/
theorem uncut_of_parse {text : String} {whole : Call} (read : parse outer text = .ok whole)
    {f : String} (inside : f ∈ Argument.functionsOf whole.arguments) :
    ∀ ch ∈ f.toList, ¬ IsCut ch :=
  ((readable_of_parse read).inner f inside).uncut

/-- An accepted call is read back as the only argument of any other function exactly if its own
name has no comma and no parenthesis in it. The call then names the function that it named before.
Otherwise no text at all has a call of that name in its arguments. -/
theorem parse_toText_iff (named : Text.trim outer ≠ "") (read : parse function arguments = .ok c) :
    (parse outer c.toText = .ok (c.around outer) ↔ ∀ ch ∈ c.function.toList, ¬ IsCut ch) ∧
    ((∃ text whole, parse outer text = .ok whole ∧
      c.function ∈ Argument.functionsOf whole.arguments) ↔ ∀ ch ∈ c.function.toList, ¬ IsCut ch) ∧
    ∀ functions : Functions, functions.find? c.function = functions.find? function := by
  have nested := parse_toText (readable_of_parse read) named
  refine ⟨⟨fun back => ?_, nested⟩, ⟨?_, fun uncut => ?_⟩, find?_function read⟩
  · exact uncut_of_parse back (mem_functionsOf_around outer c)
  · rintro ⟨text, whole, accepted, inside⟩
    exact uncut_of_parse accepted inside
  · exact ⟨_, _, nested uncut, mem_functionsOf_around outer c⟩

/-- A call two levels deep, below a function with a display name. -/
theorem parse_toText_iff_successor :
    let c : Call := ⟨"Successor", [.call "Ä" [.var .result]]⟩
    parse " Successor" "(Ä,y)" = .ok c ∧
      parse "S(x)" "(Successor,(Ä,y))" = .ok ⟨"S(x)", [.call "Successor" c.arguments]⟩ := by
  intro c
  have read : parse " Successor" "(Ä,y)" = .ok c := by
    rw [← parse_trim]
    refine parse_argumentList (c := c) ⟨by decide, by decide, ?_⟩
    exact List.forall_mem_singleton.2 ⟨by decide, by decide, by simp [IsCut]⟩
  have named : Text.trim "S(x)" ≠ "" := by decide
  obtain ⟨back, -⟩ := parse_toText_iff named read
  exact ⟨read, back.2 (by simp [c, IsCut])⟩

/-- The function is called by its display name, and is not read when the call is an argument. -/
theorem display_name_not_nested :
    let c : Call := ⟨"S(x)", [.var (.input .one)]⟩
    parse "S(x)" "x1" = .ok c ∧ Text.trim "F" ≠ "" ∧
      parse "F" c.toText = .error (.malformedArguments "(S(x),x1)" .unclosedCall) := by
  intro c
  have named : Text.trim "F" ≠ "" := by decide
  have scanned : scan [] c.toText.toList = [.opening, .word "S", .opening, .word "x", .closing,
      .comma, .word "x1", .closing] := by decide +kernel
  refine ⟨parse_argumentList (c := c) ⟨by decide, by decide, List.forall_mem_nil _⟩, named, ?_⟩
  -- the inner name ends at the second parenthesis, where no argument can follow
  simp only [parse, if_neg named, Argument.readList, scanned, Argument.read, Argument.readMore]
  rfl

end SLanguage.Call
