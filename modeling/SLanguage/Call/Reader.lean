import SLanguage.Call.Basic
import SLanguage.Refusal
import SLanguage.Text.Blank

/-!
Reading an argument list. The text is cut at commas and parentheses; the run of
characters between two cuts, trimmed, is a word, and a run of blanks is nothing.
On the words and cuts the grammar is

  list := ε | argument (',' argument)*
  argument := word | '(' word (',' argument)* ')'

where a word that stands for an argument has to be a variable, and a word after an
opening parenthesis is the name of a function. A fault of the first kind to be met
from left to right is the one that is reported.
-/

namespace SLanguage

inductive ArgumentToken where
  | opening
  | closing
  | comma
  | word (text : String)
deriving DecidableEq, Repr

namespace ArgumentToken

/-- The word, if any, that a run of characters makes; the run is given backwards. -/
def ofRun (run : List Char) : List ArgumentToken :=
  let cs := Text.trimChars run.reverse
  if cs = [] then [] else [word (String.ofList cs)]

def scan (run : List Char) : List Char → List ArgumentToken
  | [] => ofRun run
  | c :: cs =>
    if c = '(' then ofRun run ++ opening :: scan [] cs
    else if c = ')' then ofRun run ++ closing :: scan [] cs
    else if c = ',' then ofRun run ++ comma :: scan [] cs
    else scan (c :: run) cs

end ArgumentToken

namespace Argument

open ArgumentToken

mutual

/-- Reads one argument; what is left over is shorter. -/
def read (text : String) (ts : List ArgumentToken) :
    Except Refusal (Argument × { rest : List ArgumentToken // rest.length < ts.length }) :=
  match ts with
  | .word w :: rest => do
    let v ← Variable.parse w
    return (.var v, ⟨rest, by simp⟩)
  | .opening :: .word f :: inner => do
    let (arguments, ⟨rest, short⟩) ← readMore text inner
    match rest, short with
    | .closing :: rest, short =>
      return (.call f arguments, ⟨rest, by simp only [List.length_cons] at *; omega⟩)
    | _, _ => throw (.malformedArguments text .unclosedCall)
  | .opening :: _ => throw (.malformedArguments text .emptyFunctionName)
  | _ => throw (.malformedArguments text .emptyArgument)
termination_by (ts.length, 0)

/-- Reads as many arguments as follow, each after a comma. -/
def readMore (text : String) (ts : List ArgumentToken) :
    Except Refusal (List Argument × { rest : List ArgumentToken // rest.length ≤ ts.length }) :=
  match ts with
  | .comma :: inner => do
    let (a, ⟨rest, _⟩) ← read text inner
    let (as, ⟨rest, _⟩) ← readMore text rest
    return (a :: as, ⟨rest, by simp only [List.length_cons] at *; omega⟩)
  | ts => return ([], ⟨ts, Nat.le_refl _⟩)
termination_by (ts.length, 1)

end

def readList (text : String) : Except Refusal (List Argument) :=
  match scan [] text.toList with
  | [] => return []
  | ts => do
    let (a, ⟨rest, _⟩) ← read text ts
    let (as, ⟨rest, _⟩) ← readMore text rest
    if rest = [] then return a :: as else throw (.malformedArguments text .trailingInput)

end Argument

/-- The call of a named function on a textual argument list. -/
def Call.parse (function arguments : String) : Except Refusal Call := do
  let function := Text.trim function
  if function = "" then throw (.malformedArguments arguments .emptyFunctionName)
  return ⟨function, ← Argument.readList arguments⟩

end SLanguage
