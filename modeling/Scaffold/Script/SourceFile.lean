/-
# A file that returns an array literal

Before its `return` a file may hold any statements; only namespace declarations and imports are
looked at. The returned array literal ends the file, apart from a closing tag and what follows it.
-/

import Scaffold.Script.Names
import Scaffold.Script.ArrayLiteral
import Scaffold.Script.Scan

namespace Scaffold.Script

/-- The local name that the tokens after an imported name give it, if they give one. -/
def localName? : List Token → Option Text
  | keyword :: name :: _ =>
    if keyword.isWord "as".toList ∧ name.kind = .word then some name.text else none
  | _ => none

/-- The imports that the tokens of an import statement declare; `group` is the name before an open
group. -/
def importsOf (group : Option Text) : List Token → List Import
  | [] => []
  | token :: rest =>
    if token.kind = .word then
      let full := group.getD [] ++ token.text.dropWhile (· == '\\')
      if rest.head?.any (·.kind == .opening .curly) then importsOf (some full) (rest.drop 1)
      else
        match localName? rest with
        | some name => ⟨name, full⟩ :: importsOf group (rest.drop 2)
        | none => ⟨Text.afterLast '\\' full, full⟩ :: importsOf group rest
    else if token.kind = .closing .curly then importsOf none rest
    else importsOf group rest
termination_by tokens => tokens.length
decreasing_by
  · exact Text.length_drop_lt_length_cons ..
  · exact Text.length_drop_lt_length_cons ..
  all_goals exact Nat.lt_succ_self rest.length

/-- The class imports that an import statement declares: none if it imports functions or
constants. -/
def classImports (clause : List Token) : List Import :=
  let importsOther (token : Token) : Bool :=
    token.isWord "function".toList || token.isWord "const".toList
  if clause.head?.any importsOther then [] else importsOf none clause

/-- How many brackets are open after a token. -/
def depthAfter (depth : Nat) (token : Token) : Nat :=
  match token.kind with
  | .opening _ => depth + 1
  | .closing _ => depth - 1
  | _ => depth

/-- Whether a statement may start after the token. -/
def endsStatement (token : Token) : Bool :=
  token.kind == .openTag || token.kind == .semicolon || token.kind == .closing .curly

/-- The names declared before the first `return` outside all brackets, and the tokens after that
`return`. `depth` counts the open brackets and `fresh` says that a statement starts here. -/
def findReturn (names : Names) (depth : Nat) (fresh : Bool) :
    List Token → Option (Names × List Token)
  | [] => none
  | token :: rest =>
    let depth := depthAfter depth token
    if depth = 0 ∧ fresh ∧ token.kind = .word then
      if token.isWord "return".toList then some (names, rest)
      else if token.isWord "use".toList then
        let clause := rest.takeWhile (·.kind != .semicolon)
        findReturn { names with imports := names.imports ++ classImports clause } 0 true
          (rest.drop (clause.length + 1))
      else
        let declared :=
          match rest.head? with
          | some name =>
            if token.isWord "namespace".toList && name.kind == .word then
              { names with current := some (name.text.dropWhile (· == '\\')) }
            else names
          | none => names
        findReturn declared 0 false rest
    else findReturn names depth (depth == 0 && endsStatement token) rest
termination_by tokens => tokens.length
decreasing_by
  · exact Text.length_drop_lt_length_cons ..
  all_goals exact Nat.lt_succ_self rest.length

/-- What a source text holds: its tokens, the names in effect at the `return`, and the returned
array literal. -/
structure SourceFile where
  tokens : List Token
  names : Names
  root : ArrayLiteral
deriving DecidableEq, Repr

/-- Whether a file may end with these tokens after the returned array, in a source text of the
given length. -/
def checkEnd (length : Nat) : List Token → Except FaultAt Unit
  | [] => .error ⟨.missingSemicolon, length⟩
  | token :: rest =>
    if token.kind = .semicolon then
      match rest with
      | [] => .ok ()
      | extra :: _ =>
        if extra.kind = .closeTag then .ok () else .error ⟨.codeAfterReturn, extra.start⟩
    else if token.kind = .closeTag then .ok ()
    else .error ⟨.expectedSemicolon, token.start⟩

/-- Reads a source text. -/
def SourceFile.read (source : Text) : Except FaultAt SourceFile := do
  let tokens ← tokenize source
  let some (names, returned) := findReturn .global 0 true tokens
    | throw ⟨.noReturn, source.length⟩
  let some (root, rest) ← ArrayLiteral.read? returned
    | throw ⟨.notAnArray, (returned.head?.map Token.start).getD source.length⟩
  checkEnd source.length rest
  return { tokens, names, root }

end Scaffold.Script
