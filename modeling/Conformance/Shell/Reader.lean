import Conformance.Shell.Script
/-!
# Reading scripts

A script is read one complete command after the other, so that a command that is
malformed leaves those before it in force. Reading goes by tokens, of which one
may be put back. The fuel bounds how deep readings are nested; every step but a
few takes a character, so a multiple of the length suffices.
-/
namespace Conformance.Shell.Reader
open Conformance Shell

/-- Why a script cannot be read further. -/
structure Complaint where
  line : Nat
  detail : String
  deriving DecidableEq

inductive Operator
  | semicolon
  | background
  | and
  | or
  | pipe
  | openParen
  | closeParen
  | endClause
  deriving DecidableEq

namespace Operator

def text : Operator → String
  | semicolon => ";"
  | background => "&"
  | and => "&&"
  | or => "||"
  | pipe => "|"
  | openParen => "("
  | closeParen => ")"
  | endClause => ";;"

/-- The operators, each before those it begins with. -/
def all : List Operator :=
  [endClause, semicolon, and, background, or, pipe, openParen, closeParen]

/-- The operator that stands in front. -/
def front? (rest : Octets) : Option Operator :=
  all.find? fun o => o.text.toList.isPrefixOf rest

end Operator

inductive Token
  | endOfFile
  | newline
  | operator (o : Operator)
  | redirect (descriptor : Nat) (direction : Direction) (stripsTabs : Bool)
  | word (word : Word)

def keywords : List String :=
  ["!", "case", "do", "done", "elif", "else", "esac", "fi", "for", "if", "in", "then", "until",
    "while", "\x7b", "\x7d"]

namespace Token

def keyword? : Token → Option String
  | word w => w.bare?.bind fun content => keywords.find? (·.toList == content)
  | _ => none

def isKeyword (t : Token) (name : String) : Bool :=
  t.keyword? == some name

def isOperator (t : Token) (o : Operator) : Bool :=
  match t with
  | operator o' => o == o'
  | _ => false

def isEndOfFile : Token → Bool
  | endOfFile => true
  | _ => false

def name (t : Token) : String :=
  match t, t.keyword? with
  | _, some keyword => "\"" ++ keyword ++ "\""
  | endOfFile, _ => "end of file"
  | newline, _ => "newline"
  | operator o, _ => "\"" ++ o.text ++ "\""
  | redirect .., _ => "redirection"
  | word _, _ => "word"

/-- Whether a list of commands may end before a token, even if it is empty. -/
def endsList (t : Token) : Bool :=
  t.isOperator .closeParen || t.isOperator .endClause ||
    (t.keyword?.any fun k =>
      ["do", "done", "elif", "else", "esac", "fi", "then", "\x7d"].contains k)

end Token

/-- What is still to be read. Documents stand below the line that names them, and `taken` lines
there are read already. -/
structure Cursor where
  rest : Octets
  line : Nat
  taken : Nat
  pushed : Option Token

abbrev Reading (α : Type) := StateT Cursor (Except Complaint) α

def fail {α : Type} (detail : String) : Reading α :=
  fun c => .error ⟨c.line, "Syntax error: " ++ detail⟩

def unexpected {α : Type} (t : Token) (expected : Option String) : Reading α :=
  match expected with
  | none => fail (t.name ++ " unexpected")
  | some e => fail (t.name ++ " unexpected (expecting \"" ++ e ++ "\")")

def tooDeep {α : Type} : Reading α :=
  fail "too deep"

def push (t : Token) : Reading Unit :=
  modify fun c => { c with pushed := some t }

def advance (n : Nat) : Reading Unit :=
  modify fun c => { c with rest := c.rest.drop n, line := c.line + (c.rest.take n).count '\n' }

/-- A backslash at the end of a line joins it to the next one. -/
def joined : Octets → Nat
  | '\\' :: '\n' :: rest => joined rest + 2
  | _ => 0

def skipJoins : Reading Unit := do
  advance (joined (← get).rest)

/-- The characters between blanks and joins in front. -/
def blanks : Octets → Nat
  | '\\' :: '\n' :: rest => blanks rest + 2
  | c :: rest => if isBlank c then blanks rest + 1 else 0
  | [] => 0

def afterLine (rest : Octets) : Octets :=
  (rest.dropWhile (· ≠ '\n')).drop 1

def afterLines : Nat → Octets → Octets
  | 0, rest => rest
  | n + 1, rest => afterLines n (afterLine rest)

/-- Ends a line, and passes over the documents that stand below it. -/
def endLine : Reading Unit :=
  modify fun c =>
    { c with rest := afterLines c.taken (c.rest.drop 1), line := c.line + 1 + c.taken, taken := 0 }

/-- Where the parts of a word are read. -/
inductive Mode
  | word
  | double
  | document
  | operand (quoted : Bool)
  | expression (depth : Nat)
  deriving DecidableEq

def isMeta (c : Char) : Bool :=
  isBlank c || ['\n', ';', '&', '|', '<', '>', '(', ')'].contains c

def isSpecialParameter (c : Char) : Bool :=
  ['!', '#', '$', '*', '-', '?', '@'].contains c

namespace Mode

def isQuoted : Mode → Bool
  | word => false
  | operand quoted => quoted
  | _ => true

/-- How many characters close the reading, if they stand in front. -/
def closing? : Mode → Char → Octets → Option Nat
  | word, c, _ => if isMeta c then some 0 else none
  | double, c, _ => if c = '"' then some 1 else none
  | operand _, c, _ => if c = '}' then some 1 else none
  | expression 0, c, rest => if c = ')' ∧ rest.head? = some ')' then some 2 else none
  | _, _, _ => none

def atEnd : Mode → Reading Word
  | word => return []
  | document => return []
  | double => fail "Unterminated quoted string"
  | operand _ => fail "Missing '\x7d'"
  | expression _ => fail "Missing '))'"

def after : Mode → Char → Mode
  | expression depth, '(' => expression (depth + 1)
  | expression depth, ')' => expression (depth - 1)
  | mode, _ => mode

/-- Whether a backslash takes its meaning from a character inside of quotes. -/
def escapes (mode : Mode) (c : Char) : Bool :=
  ['\\', '$', backquote].contains c || (c == '"' && mode != document)
    || (c == '}' && mode == operand true)

def opensDouble : Mode → Bool
  | word => true
  | operand _ => true
  | _ => false

end Mode

/-- A command between backquotes, and what stands after it. -/
def backquoted (inDouble : Bool) : Octets → Option (Octets × Octets)
  | [] => none
  | '\\' :: c :: rest =>
    (backquoted inDouble rest).map fun (body, after) =>
      if ['\\', '$', backquote].contains c ∨ (inDouble ∧ c = '"') then (c :: body, after)
      else ('\\' :: c :: body, after)
  | c :: rest =>
    if c = backquote then some ([], rest)
    else (backquoted inDouble rest).map fun (body, after) => (c :: body, after)

/-- What stands between quotes. Even nothing makes a word there, but the list of no parameters does
not. -/
def quotedParts (inner : Word) : Word :=
  match inner with
  | [.parameter ['@'] .value _ _] => inner
  | _ => .text [] true :: inner

/-- The name of a parameter in front: a word of letters and digits, or a number. -/
def nameFront (rest : Octets) : Octets :=
  match rest with
  | c :: _ =>
    if isNameStart c then rest.takeWhile isNamePart
    else rest.takeWhile Char.isDigit
  | [] => []

def absence? : Char → Option Absence
  | '-' => some .substitute
  | '=' => some .assign
  | '?' => some .refuse
  | _ => none

/-- The form that the characters after a name select, and what stands after them. -/
def formFront (rest : Octets) : Form × Octets :=
  match rest with
  | '}' :: _ => (.value, rest)
  | ':' :: '}' :: after => (.value, '}' :: after)
  | ':' :: '+' :: after => (.whenPresent true, after)
  | '+' :: after => (.whenPresent false, after)
  | '%' :: '%' :: after => (.trimmed false true, after)
  | '%' :: after => (.trimmed false false, after)
  | '#' :: '#' :: after => (.trimmed true true, after)
  | '#' :: after => (.trimmed true false, after)
  | ':' :: c :: after =>
    match absence? c with
    | some action => (.whenAbsent true action, after)
    | none => (.malformed, c :: after)
  | c :: after =>
    match absence? c with
    | some action => (.whenAbsent false action, after)
    | none => (.malformed, c :: after)
  | [] => (.malformed, [])

/-- The name and the form of a parameter between braces. -/
def parameterFront (rest : Octets) : Octets × Form × Octets :=
  match rest with
  | '#' :: rest =>
    let name := nameFront rest
    let after := rest.drop name.length
    if name ≠ [] then
      if after.head? = some '}' then (name, .length, after) else (name, .malformed, after)
    else
      match rest with
      | c :: '}' :: _ =>
        if c = '}' then (['#'], formFront rest)
        else if isSpecialParameter c then ([c], .length, rest.drop 1)
        else ([c], .malformed, rest.drop 1)
      | _ => (['#'], formFront rest)
  | c :: after =>
    let name := nameFront rest
    if name ≠ [] then (name, formFront (rest.drop name.length))
    else if isSpecialParameter c then ([c], formFront after)
    else ([], .malformed, if c = '}' then rest else after)
  | [] => ([], .malformed, [])

/-- An assignment at the front of a word: a name, an equals sign and the rest. -/
def assignment? : Word → Option (Octets × Word)
  | .text content false :: rest =>
    let name := content.takeWhile isNamePart
    match content.drop name.length with
    | '=' :: value =>
      if isName name then
        some (name, if value = [] then rest else .text value false :: rest)
      else none
    | _ => none
  | _ => none

/-- The lines of a document up to the one that ends it, and how many lines that takes. -/
def documentLines (stripsTabs : Bool) (delimiter : Octets) : Nat → Octets → Octets × Nat
  | 0, _ => ([], 0)
  | n + 1, rest =>
    if rest = [] then ([], 0)
    else
      let written := rest.takeWhile (· ≠ '\n')
      let line := if stripsTabs then written.dropWhile (· = '\t') else written
      if line = delimiter then ([], 1)
      else
        let (body, count) := documentLines stripsTabs delimiter n (afterLine rest)
        let ending := if written.length < rest.length then ['\n'] else []
        (line ++ ending ++ body, count + 1)

/-- A redirection in front: its characters, descriptor and direction. -/
def redirectFront? (rest : Octets) : Option (Nat × Token) :=
  let (digits, descriptor, rest) := match rest with
    | d :: c :: _ => if d.isDigit ∧ (c = '<' ∨ c = '>') then (1, some (d.toNat - 48), rest.drop 1)
      else (0, none, rest)
    | _ => (0, none, rest)
  let found (length standard : Nat) (direction : Direction) (stripsTabs : Bool) :=
    some (digits + length, Token.redirect (descriptor.getD standard) direction stripsTabs)
  match rest with
  | '>' :: '>' :: _ => found 2 1 .append false
  | '>' :: '&' :: _ => found 2 1 .duplicate false
  | '>' :: '|' :: _ => found 2 1 .write false
  | '>' :: _ => found 1 1 .write false
  | '<' :: '<' :: '-' :: _ => found 3 0 .document true
  | '<' :: '<' :: _ => found 2 0 .document false
  | '<' :: '&' :: _ => found 2 0 .duplicate false
  | '<' :: '>' :: _ => found 2 0 .update false
  | '<' :: _ => found 1 0 .read false
  | _ => none

/-- The commands that a function cannot be named after. -/
def specialNames : List String :=
  [".", ":", "break", "continue", "eval", "exec", "exit", "export", "local", "readonly", "return",
    "set", "shift", "times", "trap", "unset"]

def isSpecialName (name : Octets) : Bool :=
  specialNames.any (·.toList == name)

/-- A list of commands with one more at its end. -/
def append (before : Option Command) (last : Command) : Command :=
  match before with
  | none => last
  | some first => .sequence first last

/-- What a command is made of while it is read. -/
structure Draft where
  line : Nat
  assignments : List (Octets × Word)
  words : List Word
  redirects : List (Redirect Word)

mutual

/-- Reads the parts of a word, or those up to the end of its mode. -/
def parts : Nat → Mode → Reading Word
  | 0, _ => tooDeep
  | fuel + 1, mode => do
    match (← get).rest with
    | [] => mode.atEnd
    | ['\\'] =>
      advance 1
      return .text ['\\'] true :: (← parts fuel mode)
    | '\\' :: c :: _ =>
      advance 2
      if c = '\n' then parts fuel mode
      else if mode.isQuoted ∧ ¬ mode.escapes c then
        return .text ['\\', c] true :: (← parts fuel mode)
      else return .text [c] true :: (← parts fuel mode)
    | '$' :: _ =>
      advance 1
      let part ← dollar fuel mode.isQuoted
      return part :: (← parts fuel mode)
    | c :: rest =>
      match mode.closing? c rest with
      | some n =>
        advance n
        return []
      | none =>
        if c = backquote then
          let part ← oldOutput fuel mode
          return part :: (← parts fuel mode)
        else if c = '"' ∧ mode.opensDouble then
          advance 1
          let inner ← parts fuel .double
          return quotedParts inner ++ (← parts fuel mode)
        else if c = '\'' ∧ ¬ mode.isQuoted then
          let content := rest.takeWhile (· ≠ '\'')
          if content.length = rest.length then
            advance (rest.length + 1)
            fail "Unterminated quoted string"
          else
            advance (content.length + 2)
            return .text content true :: (← parts fuel mode)
        else
          advance 1
          return .text [c] mode.isQuoted :: (← parts fuel (mode.after c))

/-- Reads what a dollar sign opens. -/
def dollar : Nat → (quoted : Bool) → Reading Part
  | 0, _ => tooDeep
  | fuel + 1, quoted => do
    skipJoins
    match (← get).rest with
    | '(' :: '(' :: _ =>
      advance 2
      let expression ← parts fuel (.expression 0)
      return .arithmetic expression.merge quoted
    | '(' :: _ =>
      advance 1
      return .output (← enclosed fuel) quoted
    | '{' :: _ =>
      advance 1
      skipJoins
      let (name, form, after) := parameterFront (← get).rest
      modify fun c => { c with rest := after }
      match form with
      | .value | .length =>
        advance 1
        return .parameter name form [] quoted
      | .trimmed .. =>
        let operand ← parts fuel (.operand false)
        return .parameter name form operand.merge quoted
      | _ =>
        let operand ← parts fuel (.operand quoted)
        return .parameter name form operand.merge quoted
    | c :: rest =>
      let name := if c.isDigit ∨ isSpecialParameter c then [c] else nameFront (c :: rest)
      advance name.length
      if name = [] then return .text ['$'] quoted
      else return .parameter name .value [] quoted
    | [] => return .text ['$'] quoted

/-- Reads commands up to the parenthesis that closes them. -/
def enclosed : Nat → Reading (Option Command)
  | 0 => tooDeep
  | fuel + 1 => do
    let before ← get
    set { before with pushed := none, taken := 0 }
    let body ← list fuel false true none
    let t ← next fuel
    if ¬ t.isOperator .closeParen then unexpected t (some ")")
    modify fun c => { c with pushed := before.pushed, taken := before.taken }
    return body

/-- Reads commands between backquotes, which are read as a script of their own. -/
def oldOutput : Nat → Mode → Reading Part
  | 0, _ => tooDeep
  | fuel + 1, mode => do
    let c ← get
    match backquoted (mode = .double) (c.rest.drop 1) with
    | none =>
      advance c.rest.length
      fail "EOF in backquote substitution"
    | some (body, after) =>
      set { c with rest := body, pushed := none, taken := 0 }
      let command ← list fuel false true none
      modify fun inner => { inner with rest := after, pushed := c.pushed, taken := c.taken }
      return .output command mode.isQuoted

def token : Nat → Reading Token
  | 0 => tooDeep
  | fuel + 1 => do
    advance (blanks (← get).rest)
    let rest := (← get).rest
    match rest with
    | [] => return .endOfFile
    | '#' :: _ =>
      advance (rest.takeWhile (· ≠ '\n')).length
      token fuel
    | '\n' :: _ =>
      endLine
      return .newline
    | _ =>
      match redirectFront? rest, Operator.front? rest with
      | some (length, t), _ =>
        advance length
        return t
      | none, some o =>
        advance o.text.length
        return .operator o
      | none, none => return .word (← parts fuel .word).merge

/-- The token that was put back, or the next one. -/
def next : Nat → Reading Token
  | 0 => tooDeep
  | fuel + 1 => do
    match (← get).pushed with
    | some t =>
      modify fun c => { c with pushed := none }
      return t
    | none => token fuel

/-- The next token that is not the end of a line. -/
def nextBelow : Nat → Reading Token
  | 0 => tooDeep
  | fuel + 1 => do
    match ← next fuel with
    | .newline => nextBelow fuel
    | t => return t

def skipLines : Nat → Reading Unit
  | 0 => tooDeep
  | fuel + 1 => do
    push (← nextBelow fuel)

def expect : Nat → String → Reading Unit
  | 0, _ => tooDeep
  | fuel + 1, keyword => do
    let t ← next fuel
    if t.isKeyword keyword then return () else unexpected t (some keyword)

/-- Reads commands after those `before`. A list on its own ends with the line; another one ends
before a token that cannot go on with it. -/
def list : Nat → (onItsOwn mayEnd : Bool) → (before : Option Command) → Reading (Option Command)
  | 0, _, _, _ => tooDeep
  | fuel + 1, onItsOwn, mayEnd, before => do
    match ← (if onItsOwn then next fuel else nextBelow fuel) with
    | .newline => return before
    | .endOfFile =>
      push .endOfFile
      return before
    | t =>
      push t
      if mayEnd ∧ t.endsList then return before
      let command ← andOr fuel
      let t ← next fuel
      let command := if t.isOperator .background then .background command else command
      let all := some (append before command)
      match t with
      | .newline | .endOfFile =>
        push t
        list fuel onItsOwn (!onItsOwn) all
      | .operator .background | .operator .semicolon => list fuel onItsOwn (!onItsOwn) all
      | t =>
        if onItsOwn then unexpected t none
        push t
        return all

def andOr : Nat → Reading Command
  | 0 => tooDeep
  | fuel + 1 => do
    andOrAfter fuel (← pipeline fuel)

def andOrAfter : Nat → Command → Reading Command
  | 0, _ => tooDeep
  | fuel + 1, first => do
    match ← next fuel with
    | .operator .and =>
      skipLines fuel
      andOrAfter fuel (.both first (← pipeline fuel))
    | .operator .or =>
      skipLines fuel
      andOrAfter fuel (.either first (← pipeline fuel))
    | t =>
      push t
      return first

def pipeline : Nat → Reading Command
  | 0 => tooDeep
  | fuel + 1 => do
    let t ← next fuel
    if t.isKeyword "!" then return .negation (← stages fuel)
    else
      push t
      stages fuel

def stages : Nat → Reading Command
  | 0 => tooDeep
  | fuel + 1 => do
    let first ← command fuel
    match ← stagesAfter fuel with
    | [] => return first
    | others => return .pipeline (first :: others)

def stagesAfter : Nat → Reading (List Command)
  | 0 => tooDeep
  | fuel + 1 => do
    match ← next fuel with
    | .operator .pipe =>
      skipLines fuel
      let first ← command fuel
      return first :: (← stagesAfter fuel)
    | t =>
      push t
      return []

def command : Nat → Reading Command
  | 0 => tooDeep
  | fuel + 1 => do
    let t ← next fuel
    let line := (← get).line
    match t, t.keyword? with
    | .redirect .., _ =>
      push t
      simple fuel ⟨line, [], [], []⟩
    | .word _, none =>
      push t
      simple fuel ⟨line, [], [], []⟩
    | _, _ =>
      let c ← compound fuel line t
      match ← redirects fuel with
      | [] => return c
      | found => return .redirected line c found

/-- Reads a command that starts with a token of its own, up to the token that ends it. -/
def compound : Nat → (line : Nat) → Token → Reading Command
  | 0, _, _ => tooDeep
  | fuel + 1, line, t => do
    match t, t.keyword? with
    | .operator .openParen, _ =>
      let body ← list fuel false false none
      let t ← next fuel
      if ¬ t.isOperator .closeParen then unexpected t (some ")")
      return .subshell body
    | _, some "\x7b" =>
      let body ← list fuel false false none
      expect fuel "\x7d"
      return .group body
    | _, some "if" =>
      let c ← choice fuel
      expect fuel "fi"
      return c
    | _, some "while" => loop fuel false
    | _, some "until" => loop fuel true
    | _, some "for" => each fuel line
    | _, some "case" => select fuel line
    | t, _ => unexpected t none

/-- Reads the branches of a choice, whose last keyword is left. -/
def choice : Nat → Reading Command
  | 0 => tooDeep
  | fuel + 1 => do
    let condition ← list fuel false false none
    expect fuel "then"
    let yes ← list fuel false false none
    let t ← next fuel
    if t.isKeyword "elif" then return .choice condition yes (some (← choice fuel))
    else if t.isKeyword "else" then return .choice condition yes (← list fuel false false none)
    else
      push t
      return .choice condition yes none

def loop : Nat → (untilTrue : Bool) → Reading Command
  | 0, _ => tooDeep
  | fuel + 1, untilTrue => do
    let condition ← list fuel false false none
    expect fuel "do"
    let body ← list fuel false false none
    expect fuel "done"
    return .loop untilTrue condition body

def each : Nat → (line : Nat) → Reading Command
  | 0, _ => tooDeep
  | fuel + 1, line => do
    let name ← match ← next fuel with
      | .word w => pure ((w.bare?).getD [])
      | _ => pure []
    if ¬ isName name then fail "Bad for loop variable"
    let t ← nextBelow fuel
    let words ←
      if t.isKeyword "in" then do
        let (words, t) ← wordsUntil fuel
        if ¬ (t.isOperator .semicolon ∨ t.name = "newline") then unexpected t none
        pure (some words)
      else do
        if ¬ t.isOperator .semicolon then push t
        pure none
    let t ← nextBelow fuel
    if ¬ t.isKeyword "do" then unexpected t (some "do")
    let body ← list fuel false false none
    expect fuel "done"
    return .each line name words body

/-- Reads words, and the token after them. -/
def wordsUntil : Nat → Reading (List Word × Token)
  | 0 => tooDeep
  | fuel + 1 => do
    match ← next fuel with
    | .word w =>
      let (words, t) ← wordsUntil fuel
      return (w :: words, t)
    | t => return ([], t)

def select : Nat → (line : Nat) → Reading Command
  | 0, _ => tooDeep
  | fuel + 1, line => do
    match ← next fuel with
    | .word subject =>
      let t ← nextBelow fuel
      if ¬ t.isKeyword "in" then unexpected t (some "in")
      return .select line subject (← clauses fuel)
    | t => fail (t.name ++ " unexpected (expecting word)")

def clauses : Nat → Reading (List (List Word × Option Command))
  | 0 => tooDeep
  | fuel + 1 => do
    let t ← nextBelow fuel
    if t.isKeyword "esac" then return []
    let first ← if t.isOperator .openParen then next fuel else pure t
    let patterns ← patternsAfter fuel first
    let body ← list fuel false true none
    let t ← nextBelow fuel
    if t.isKeyword "esac" then return [(patterns, body)]
    if ¬ t.isOperator .endClause then unexpected t (some ";;")
    return (patterns, body) :: (← clauses fuel)

/-- Reads the patterns of a clause from one on, and the parenthesis after them. -/
def patternsAfter : Nat → Token → Reading (List Word)
  | 0, _ => tooDeep
  | fuel + 1, t => do
    let pattern := match t with
      | .word w => [w]
      | _ => []
    match ← next fuel with
    | .operator .pipe => return pattern ++ (← patternsAfter fuel (← next fuel))
    | .operator .closeParen => return pattern
    | t => unexpected t (some ")")

/-- Reads the redirections after a command that is no simple one. -/
def redirects : Nat → Reading (List (Redirect Word))
  | 0 => tooDeep
  | fuel + 1 => do
    match ← next fuel with
    | .redirect descriptor direction stripsTabs =>
      let first ← redirect fuel descriptor direction stripsTabs
      return first :: (← redirects fuel)
    | t =>
      push t
      return []

/-- Reads the target of a redirection; the lines of a document are taken from further below. -/
def redirect : Nat → Nat → Direction → (stripsTabs : Bool) → Reading (Redirect Word)
  | 0, _, _, _ => tooDeep
  | fuel + 1, descriptor, direction, stripsTabs => do
    match ← next fuel with
    | .word w =>
      if direction ≠ .document then return ⟨descriptor, direction, w⟩
      else
        let c ← get
        let below := afterLines c.taken (afterLine c.rest)
        let (body, count) := documentLines stripsTabs w.plain below.length below
        if w.isQuoted then
          set { c with taken := c.taken + count }
          return ⟨descriptor, direction, [.text body true]⟩
        else
          set { c with rest := body, taken := 0 }
          let content ← parts fuel .document
          set { c with taken := c.taken + count }
          return ⟨descriptor, direction, content.merge⟩
    | t => unexpected t none

/-- Reads a command of words, assignments before them, and redirections anywhere. -/
def simple : Nat → Draft → Reading Command
  | 0, _ => tooDeep
  | fuel + 1, d => do
    let t ← next fuel
    match t with
    | .word w =>
      match d.words, assignment? w with
      | [], some assignment => simple fuel { d with assignments := d.assignments ++ [assignment] }
      | _, _ => simple fuel { d with words := d.words ++ [w] }
    | .redirect descriptor direction stripsTabs =>
      let found ← redirect fuel descriptor direction stripsTabs
      simple fuel { d with redirects := d.redirects ++ [found] }
    | t =>
      match t, d.words, d.assignments, d.redirects with
      | .operator .openParen, [name], [], [] => definition fuel name
      | _, _, _, _ =>
        push t
        return .simple d.line d.assignments d.words d.redirects

def definition : Nat → Word → Reading Command
  | 0, _ => tooDeep
  | fuel + 1, name => do
    let t ← next fuel
    if ¬ t.isOperator .closeParen then unexpected t (some ")")
    match name.bare? with
    | some name =>
      if isName name ∧ ¬ isSpecialName name then
        skipLines fuel
        return .definition name (← command fuel)
      else fail "Bad function name"
    | none => fail "Bad function name"

end

/-- Reads the complete commands from a cursor on, as far as they are well formed. -/
def complete (fuel : Nat) : (lines : Nat) → Cursor → List Command × Option Complaint
  | 0, _ => ([], none)
  | n + 1, c =>
    match (list fuel true false none).run c with
    | .error complaint => ([], some complaint)
    | .ok (found, c) =>
      if c.pushed.any Token.isEndOfFile then (found.toList, none)
      else
        let (others, complaint) := complete fuel n { c with pushed := none }
        (found.toList ++ others, complaint)

/-- The commands of a script, and what ends them early. -/
def read (script : Octets) : List Command × Option Complaint :=
  complete (16 * script.length + 64) (script.length + 1) ⟨script, 1, 0, none⟩

end Conformance.Shell.Reader
