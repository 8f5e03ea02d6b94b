import Drevo.Lib.Attempt

/-! The regular expressions of the `=~` operator: parsing a pattern into a tree, and matching a whole input against
the tree by backtracking on a budget. -/
namespace Drevo.Cypher.Regexp
open Lib

/-- The steps after which matching gives up. -/
def matchBudget : ℕ := 2000000

inductive RegexError where
  | syntaxError (message : String)
  | complexity
  deriving DecidableEq

/-- A single item inside a character class. -/
inductive ClassItem where
  | char (c : Char)
  | range (a b : Char)
  | digit | notDigit | word | notWord | space | notSpace
  deriving DecidableEq

def charEq (pat c : Char) (ci : Bool) : Bool := if ci then pat.toLower = c.toLower else pat = c

def isAsciiWhitespace (c : Char) : Bool := c = ' ' || c = '\t' || c = '\n' || c = '\x0c' || c = '\r'

def ClassItem.matches (c : Char) (ci : Bool) : ClassItem → Bool
  | .char x => charEq x c ci
  | .range a b =>
    let inr := fun x : Char => a ≤ x && x ≤ b
    inr c || (ci && (inr c.toLower || inr c.toUpper))
  | .digit => c.isDigit
  | .notDigit => !c.isDigit
  | .word => c.isAlphanum || c = '_'
  | .notWord => !(c.isAlphanum || c = '_')
  | .space => isAsciiWhitespace c
  | .notSpace => !isAsciiWhitespace c

/-- The parsed tree. -/
inductive Node where
  | empty
  | literal (c : Char)
  | anyChar
  | startOfInput
  | endOfInput
  | charClass (negated : Bool) (items : List ClassItem)
  | concat (nodes : List Node)
  | alternate (alts : List Node)
  | repeated (node : Node) (min : ℕ) (max : Option ℕ) (greedy : Bool)

structure Regex where
  root : Node
  caseInsensitive : Bool

/-! ## Matching -/

/-- A sub-pattern repeated between `min` and `max` times, of which there were `count`. Each round but the last goes on
from a later position, so that there are no more than the input has characters. -/
def mRepeat (inner : ℕ → (ℕ → Attempt) → Attempt) (min : ℕ) (max : Option ℕ) (greedy : Bool) : ℕ → ℕ → ℕ → (ℕ → Attempt) → Attempt
  | 0,_,_,_ => Attempt.overflow
  | fuel+1,count,pos,k =>
    let tryMore := Attempt.guarded (max.all (fun most => count < most)) (inner pos (fun p =>
      -- a match of nothing is the last repetition
      if p = pos then Attempt.guarded (min ≤ count+1) (k p) else mRepeat inner min max greedy fuel (count+1) p k))
    let tryStop := Attempt.guarded (min ≤ count) (k pos)
    if greedy then tryMore.orElse tryStop else tryStop.orElse tryMore

section Matching
variable (chars : List Char) (ci : Bool)

mutual

/-- Match a tree from a position, and call the continuation with the position past the match. -/
def m : Node → ℕ → (ℕ → Attempt) → Attempt
  | .empty,pos,k => Attempt.charged (k pos)
  | .literal c,pos,k => Attempt.charged (Attempt.guarded (chars[pos]?.any (fun x => charEq c x ci)) (k (pos+1)))
  | .anyChar,pos,k => Attempt.charged (Attempt.guarded (chars[pos]?.any (fun x => x ≠ '\n')) (k (pos+1)))
  | .startOfInput,pos,k => Attempt.charged (Attempt.guarded (pos = 0) (k pos))
  | .endOfInput,pos,k => Attempt.charged (Attempt.guarded (pos = chars.length) (k pos))
  | .charClass negated items,pos,k =>
    Attempt.charged (Attempt.guarded (chars[pos]?.any (fun c => items.any (fun it => it.matches c ci) != negated)) (k (pos+1)))
  | .concat nodes,pos,k => Attempt.charged (mConcat nodes pos k)
  | .alternate alts,pos,k => Attempt.charged (mAny alts pos k)
  | .repeated node min max greedy,pos,k =>
    Attempt.charged (mRepeat (fun pos k => m node pos k) min max greedy (chars.length+1) 0 pos k)

def mConcat : List Node → ℕ → (ℕ → Attempt) → Attempt
  | [],pos,k => k pos
  | first::rest,pos,k => m first pos (fun p => mConcat rest p k)

def mAny : List Node → ℕ → (ℕ → Attempt) → Attempt
  | [],_,_ => Attempt.answer false
  | a::alts,pos,k => (m a pos k).orElse (mAny alts pos k)

end

end Matching

def Regex.isMatch (regex : Regex) (input : List Char) : Except RegexError Bool :=
  match m input regex.caseInsensitive regex.root 0 (fun p => Attempt.answer (p = input.length)) ⟨matchBudget,false⟩ with
  | (matched,s) => if s.overflowed then .error .complexity else .ok matched

/-! ## Parsing -/

structure Parser where
  chars : List Char
  pos : ℕ
  ci : Bool

/-- Why parsing stops: the pattern is malformed, or the fuel of the model is used up. -/
inductive Halt where
  | error (e : RegexError)
  | fuel
  deriving DecidableEq

def malformed {α : Type*} (message : String) : Except Halt α := .error (.error (.syntaxError message))

/-- One element of a character class as it is read. -/
inductive ClassAtom where
  | shortcut (item : ClassItem)
  | ch (c : Char)

/-- The largest number that a count can be. -/
def usizeMax : ℕ := 2^64-1

namespace Parser

def peek (p : Parser) : Option Char := p.chars[p.pos]?

def peekAt (p : Parser) (n : ℕ) : Option Char := p.chars[p.pos+n]?

def advance (p : Parser) : Parser := { p with pos := p.pos+1 }

def readNumber (p : Parser) : Option ℕ × Parser :=
  let digits := (p.chars.drop p.pos).takeWhile Char.isDigit
  if digits = [] then (none,p)
  else (some (digits.foldl (fun val c => min (min (val*10) usizeMax+(c.toNat - '0'.toNat)) usizeMax) 0),{ p with pos := p.pos+digits.length })

def tryParseBrace (p : Parser) : Option ((ℕ × Option ℕ) × Parser) :=
  let (min,p) := p.advance.readNumber
  match p.peek with
  | some '\x7d' => min.map (fun n => ((n,some n),p.advance))
  | some ',' =>
    let (max,p) := p.advance.readNumber
    match min,p.peek with
    | some n,some '\x7d' => some ((n,max),p.advance)
    | _,_ => none
  | _ => none

def finishQuant (p : Parser) (atom : Node) (min : ℕ) (max : Option ℕ) : Node × Parser :=
  match p.peek with
  | some '?' => (.repeated atom min max false,p.advance)
  | some '+' => (.repeated atom min max true,p.advance)
  | _ => (.repeated atom min max true,p)

def escapeChar : Char → Char
  | 'n' => '\n'
  | 't' => '\t'
  | 'r' => '\r'
  | 'f' => '\x0c'
  | '0' => '\x00'
  | other => other

/-- The predefined class that an escaped letter stands for. -/
def shortcut : Char → Option ClassItem
  | 'd' => some .digit
  | 'D' => some .notDigit
  | 'w' => some .word
  | 'W' => some .notWord
  | 's' => some .space
  | 'S' => some .notSpace
  | _ => none

def parseEscape (p : Parser) : Except Halt (Node × Parser) :=
  let p := p.advance
  match p.peek with
  | none => malformed "dangling escape `\\` at end of pattern"
  | some c =>
    match shortcut c with
    | some item => .ok (.charClass false [item],p.advance)
    | none => .ok (.literal (escapeChar c),p.advance)

def readClassAtom (p : Parser) : Except Halt (ClassAtom × Parser) :=
  match p.peek with
  | none => malformed "unclosed character class `[`"
  | some '\\' =>
    let p := p.advance
    match p.peek with
    | none => malformed "dangling escape in character class"
    | some e =>
      match shortcut e with
      | some item => .ok (.shortcut item,p.advance)
      | none => .ok (.ch (escapeChar e),p.advance)
  | some c => .ok (.ch c,p.advance)

/-- The items of a character class up to the closing bracket; one that comes first is an item. -/
def parseClassItems : ℕ → Parser → Bool → List ClassItem → Except Halt (List ClassItem × Parser)
  | 0,_,_,_ => .error .fuel
  | fuel+1,p,first,items => do
    if p.peek = none then malformed "unclosed character class `[`"
    else if p.peek = some ']' ∧ first = false then .ok (items,p.advance)
    else
      let (atom,p) ← p.readClassAtom
      match atom with
      | .shortcut item => parseClassItems fuel p false (items ++ [item])
      | .ch lo =>
        if p.peek = some '-' ∧ p.peekAt 1 ≠ none ∧ p.peekAt 1 ≠ some ']' then
          let (atom,p) ← p.advance.readClassAtom
          match atom with
          | .ch hi =>
            if hi < lo then
              malformed ("character class range out of order: " ++ String.singleton lo ++ "-" ++ String.singleton hi)
            else parseClassItems fuel p false (items ++ [.range lo hi])
          | .shortcut item => parseClassItems fuel p false (items ++ [.char lo,.char '-',item])
        else parseClassItems fuel p false (items ++ [.char lo])

def parseClass (fuel : ℕ) (p : Parser) : Except Halt (Node × Parser) := do
  let p := p.advance
  let negated := decide (p.peek = some '^')
  let p := if negated then p.advance else p
  let (items,p) ← parseClassItems fuel p true []
  .ok (.charClass negated items,p)

/-- What opens a group, after the bracket; no parser for a flag that stands alone. -/
def openGroup (p : Parser) : Except Halt (Parser × Bool) :=
  if p.peek = some '?' then
    let p := p.advance
    match p.peek with
    | some ':' => .ok (p.advance,false)
    | some 'i' =>
      let p := { p.advance with ci := true }
      match p.peek with
      | some ')' => .ok (p.advance,true)
      | some ':' => .ok (p.advance,false)
      | _ => malformed "unsupported inline flag group"
    | _ => malformed "unsupported `(?...)` group construct"
  else .ok (p,false)

mutual

def parseAlternation : ℕ → Parser → Except Halt (Node × Parser)
  | 0,_ => .error .fuel
  | fuel+1,p => do
    let (first,p) ← parseConcat fuel p
    let (branches,p) ← parseBranches fuel p [first]
    match branches with
    | [node] => .ok (node,p)
    | _ => .ok (.alternate branches,p)

def parseBranches : ℕ → Parser → List Node → Except Halt (List Node × Parser)
  | 0,_,_ => .error .fuel
  | fuel+1,p,branches =>
    if p.peek = some '|' then do
      let (branch,p) ← parseConcat fuel p.advance
      parseBranches fuel p (branches ++ [branch])
    else .ok (branches,p)

def parseConcat : ℕ → Parser → Except Halt (Node × Parser)
  | 0,_ => .error .fuel
  | fuel+1,p => do
    let (items,p) ← parseItems fuel p []
    match items with
    | [] => .ok (.empty,p)
    | [only] => .ok (only,p)
    | _ => .ok (.concat items,p)

def parseItems : ℕ → Parser → List Node → Except Halt (List Node × Parser)
  | 0,_,_ => .error .fuel
  | fuel+1,p,items =>
    match p.peek with
    | none => .ok (items,p)
    | some c =>
      if c = '|' ∨ c = ')' then .ok (items,p)
      else do
        let (item,p) ← parseRepeat fuel p
        parseItems fuel p (items ++ [item])

def parseRepeat : ℕ → Parser → Except Halt (Node × Parser)
  | 0,_ => .error .fuel
  | fuel+1,p => do
    let (atom,p) ← parseAtom fuel p
    match p.peek with
    | some '*' => .ok (p.advance.finishQuant atom 0 none)
    | some '+' => .ok (p.advance.finishQuant atom 1 none)
    | some '?' => .ok (p.advance.finishQuant atom 0 (some 1))
    | some '\x7b' =>
      match p.tryParseBrace with
      | some ((min,max),p) => .ok (p.finishQuant atom min max)
      | none => .ok (atom,p)
    | _ => .ok (atom,p)

def parseAtom : ℕ → Parser → Except Halt (Node × Parser)
  | 0,_ => .error .fuel
  | fuel+1,p =>
    match p.peek with
    | none => malformed "unexpected end of pattern"
    | some '(' => parseGroup fuel p
    | some '[' => p.parseClass fuel
    | some '.' => .ok (.anyChar,p.advance)
    | some '^' => .ok (.startOfInput,p.advance)
    | some '$' => .ok (.endOfInput,p.advance)
    | some '\\' => p.parseEscape
    | some c =>
      if c = '*' ∨ c = '+' ∨ c = '?' then malformed ("dangling quantifier `" ++ String.singleton c ++ "` with nothing to repeat")
      else .ok (.literal c,p.advance)

def parseGroup : ℕ → Parser → Except Halt (Node × Parser)
  | 0,_ => .error .fuel
  | fuel+1,p => do
    let (p,flag) ← p.advance.openGroup
    if flag then .ok (.empty,p)
    else
      let (inner,p) ← parseAlternation fuel p
      if p.peek = some ')' then .ok (inner,p.advance) else malformed "unclosed group `(`"

end

end Parser

def compile (fuel : ℕ) (pattern : List Char) : Except Halt Regex := do
  let (root,p) ← Parser.parseAlternation fuel ⟨pattern,0,false⟩
  match p.peek with
  | none => .ok ⟨root,p.ci⟩
  | some c => malformed ("unexpected `" ++ String.singleton c ++ "` at position " ++ toString p.pos)

def fullMatch (fuel : ℕ) (pattern input : List Char) : Except Halt Bool := do
  let regex ← compile fuel pattern
  match regex.isMatch input with
  | .ok matched => .ok matched
  | .error e => .error (.error e)

end Drevo.Cypher.Regexp
