import LazyVectors.Double.Reading
import LazyVectors.Settings.Moment
/-!
The notation of settings files: sections in brackets, settings as `key = value`, comments behind
`#`. Values are whole numbers in four bases, texts in single or double quotes on one line or
between triple quotes on several, truth values, decimal fractions, dates and times, lists and
inline tables. Keys and values nest no deeper than `maxNesting`. A reader takes the characters
before it and answers with what it read and the rest, or with nothing where the notation is
violated.
-/

set_option autoImplicit false

namespace LazyVectors.Settings

/-- A value in a settings file. Only what a setting can be is told apart. -/
inductive Literal where
  | integer (i : Int)
  | text (s : String)
  | other
  | list (xs : List Literal)
  | table (entries : List (List String × Literal))

inductive Line where
  | header (path : List String)
  | listHeader (path : List String)
  | entry (path : List String) (x : Literal)

namespace Notation

def isPlain (c : Char) : Bool := c == '\t' || 0x20 ≤ c.toNat && c.toNat != 0x7F

def skipBlanks (cs : List Char) : List Char := cs.dropWhile fun c => c == ' ' || c == '\t'

def newline? : List Char → Option (List Char)
  | '\n' :: cs => some cs
  | '\r' :: '\n' :: cs => some cs
  | _ => none

def skipComment : List Char → List Char
  | '#' :: cs => cs.dropWhile isPlain
  | cs => cs

def endOfLine? (cs : List Char) : Option (List Char) :=
  match skipComment (skipBlanks cs) with
  | [] => some []
  | cs => newline? cs

def skipSpace : Nat → List Char → List Char
  | 0, cs => cs
  | n + 1, cs =>
    match skipComment (skipBlanks cs) with
    | [] => []
    | rest =>
      match newline? rest with
      | some rest => skipSpace n rest
      | none => rest

def codePoint? (digits : Nat) (cs : List Char) : Option (Char × List Char) := do
  let ds ← (cs.take digits).mapM Decimal.hexDigit?
  let n := Decimal.valueIn 16 ds
  if ds.length = digits ∧ n.isValidChar then some (Char.ofNat n, cs.drop digits) else none

def escape? : List Char → Option (Char × List Char)
  | 'b' :: cs => some ('\x08', cs)
  | 't' :: cs => some ('\t', cs)
  | 'n' :: cs => some ('\n', cs)
  | 'f' :: cs => some ('\x0c', cs)
  | 'r' :: cs => some ('\r', cs)
  | '"' :: cs => some ('"', cs)
  | '\\' :: cs => some ('\\', cs)
  | 'u' :: cs => codePoint? 4 cs
  | 'U' :: cs => codePoint? 8 cs
  | _ => none

def lineText? (quote : Char) : Nat → List Char → Option (List Char × List Char)
  | 0, _ => none
  | n + 1, c :: cs =>
    if c = quote then some ([], cs)
    else if c = '\\' ∧ quote = '"' then do
      let (e, rest) ← escape? cs
      let (s, rest) ← lineText? quote n rest
      some (e :: s, rest)
    else if isPlain c then do
      let (s, rest) ← lineText? quote n cs
      some (c :: s, rest)
    else none
  | _ + 1, [] => none

/-- Skips blanks and ends of lines behind a backslash at the end of a line. -/
def skipFolded : Nat → List Char → List Char
  | 0, cs => cs
  | n + 1, cs =>
    match newline? (skipBlanks cs) with
    | some rest => skipFolded n rest
    | none => skipBlanks cs

/-- The rest of a text on several lines, up to three quotes; one or two more belong to it. -/
def blockText? (quote : Char) : Nat → List Char → Option (List Char × List Char)
  | 0, _ => none
  | _ + 1, [] => none
  | n + 1, c :: cs =>
    if c = quote ∧ cs.take 2 = [quote, quote] then
      let more := ((cs.drop 2).takeWhile (· == quote)).length
      if 2 < more then some ([quote, quote], cs.drop 4)
      else some (List.replicate more quote, cs.drop (2 + more))
    else if c = '\\' ∧ quote = '"' then
      match newline? (skipBlanks cs) with
      | some rest => blockText? quote n (skipFolded cs.length rest)
      | none => do
        let (e, rest) ← escape? cs
        let (s, rest) ← blockText? quote n rest
        some (e :: s, rest)
    else
      match newline? (c :: cs) with
      | some rest => do
        let (s, rest) ← blockText? quote n rest
        some ('\n' :: s, rest)
      | none =>
        if isPlain c then do
          let (s, rest) ← blockText? quote n cs
          some (c :: s, rest)
        else none

def quoted? : List Char → Option (String × List Char)
  | [] => none
  | q :: cs =>
    if q = '"' ∨ q = '\'' then
      let read :=
        if cs.take 2 = [q, q] then
          let body := cs.drop 2
          blockText? q (cs.length + 1) ((newline? body).getD body)
        else lineText? q (cs.length + 1) cs
      read.map fun (s, rest) => (String.ofList s, rest)
    else none

def maxNesting : Nat := 79

def isBare (c : Char) : Bool := c.isAlphanum || c == '_' || c == '-'

def keyPart? (cs : List Char) : Option (String × List Char) :=
  match cs with
  | '"' :: rest | '\'' :: rest => do
    let quote ← cs.head?
    let (s, rest) ← lineText? quote (rest.length + 1) rest
    some (String.ofList s, rest)
  | cs =>
    let name := cs.takeWhile isBare
    if name.isEmpty then none else some (String.ofList name, cs.dropWhile isBare)

/-- A key of parts between points, a number of them at most. -/
def key? : Nat → List Char → Option (List String × List Char)
  | 0, _ => none
  | n + 1, cs => do
    let (part, rest) ← keyPart? (skipBlanks cs)
    match skipBlanks rest with
    | '.' :: rest => do
      let (parts, rest) ← key? n rest
      some (part :: parts, rest)
    | rest => some ([part], rest)

def groupedDigits? (digit? : Char → Option Nat) : List Char → Option (List Nat)
  | [] => none
  | [c] => (digit? c).map ([·])
  | c :: '_' :: cs => do
    let d ← digit? c
    let ds ← groupedDigits? digit? cs
    some (d :: ds)
  | c :: cs => do
    let d ← digit? c
    let ds ← groupedDigits? digit? cs
    some (d :: ds)

def digitBelow? (base : Nat) (c : Char) : Option Nat := (Decimal.hexDigit? c).filter (· < base)

def inBase? (base : Nat) (cs : List Char) : Option Int :=
  (groupedDigits? (digitBelow? base) cs).map fun ds => Decimal.valueIn base ds

def unsigned? (cs : List Char) : Option Nat := do
  let ds ← groupedDigits? Decimal.digit? cs
  if 1 < ds.length ∧ ds.head? = some 0 then none else some (Decimal.value ds)

def decimal? (cs : List Char) : Option Int :=
  let (negative, body) := takeSign cs
  (unsigned? body).map fun n => if negative then -(n : Int) else n

def wholeNumber? : List Char → Option Int
  | '0' :: 'x' :: cs => inBase? 16 cs
  | '0' :: 'o' :: cs => inBase? 8 cs
  | '0' :: 'b' :: cs => inBase? 2 cs
  | cs => decimal? cs

/-- A number with a fraction or an exponent, which does not round to the positive infinity, or a
name of an infinity or a NaN. -/
def isFraction (cs : List Char) : Bool :=
  let (negative, body) := takeSign cs
  if body = ['i', 'n', 'f'] ∨ body = ['n', 'a', 'n'] then true
  else
    let mantissa := body.takeWhile fun c => c != 'e' && c != 'E'
    let power := body.drop mantissa.length
    let whole := mantissa.takeWhile (· != '.')
    let part := mantissa.drop whole.length
    let powerFits := match power with
      | [] => true
      | _ :: '-' :: ds | _ :: '+' :: ds | _ :: ds => (groupedDigits? Decimal.digit? ds).isSome
    let partFits := match part with
      | [] => !power.isEmpty
      | _ :: ds => (groupedDigits? Decimal.digit? ds).isSome
    (unsigned? whole).isSome && partFits && powerFits &&
      Double.readDecimal? negative (body.filter (· != '_')) != some .infinity

def word? (cs : List Char) : Option Literal :=
  if cs = "true".toList ∨ cs = "false".toList then some .other
  else
    match wholeNumber? cs with
    | some i =>
      if Int64.minValue.toInt ≤ i ∧ i ≤ Int64.maxValue.toInt then some (.integer i) else none
    | none => if isFraction cs then some .other else none

def isWordChar (c : Char) : Bool := isBare c || c == '+' || c == '.'

/-- No two keys of an inline table are the same, and none leads through another. -/
def keysFit : List (List String × Literal) → Bool
  | [] => true
  | (k, _) :: rest =>
    rest.all (fun e => !(k.isPrefixOf e.1) && !(e.1.isPrefixOf k)) && keysFit rest

def plainValue? (cs : List Char) : Option (Literal × List Char) :=
  match Moment.read? cs with
  | some rest => some (.other, rest)
  | none => (word? (cs.takeWhile isWordChar)).map fun x => (x, cs.dropWhile isWordChar)

mutual

/-- A value in which only so many more brackets may open. The other number bounds the reading. -/
def value? (room : Nat) : Nat → List Char → Option (Literal × List Char)
  | 0, _ => none
  | n + 1, cs =>
    match cs, room with
    | '[' :: rest, room + 1 => items? room n (skipSpace rest.length rest)
    | '\x7b' :: rest, room + 1 => do
      let (entries, rest) ← entries? room n (skipBlanks rest)
      if keysFit entries then some (.table entries, rest) else none
    | '"' :: _, _ | '\'' :: _, _ => (quoted? cs).map fun (s, rest) => (.text s, rest)
    | cs, _ => plainValue? cs

def items? (room : Nat) : Nat → List Char → Option (Literal × List Char)
  | 0, _ => none
  | n + 1, cs =>
    match cs with
    | ']' :: rest => some (.list [], rest)
    | cs => do
      let (x, rest) ← value? room n cs
      match skipSpace rest.length rest with
      | ',' :: rest => do
        let (xs, rest) ← items? room n (skipSpace rest.length rest)
        match xs with
        | .list xs => some (.list (x :: xs), rest)
        | _ => none
      | ']' :: rest => some (.list [x], rest)
      | _ => none

def entries? (room : Nat) : Nat → List Char → Option (List (List String × Literal) × List Char)
  | 0, _ => none
  | n + 1, cs =>
    match cs with
    | '\x7d' :: rest => some ([], rest)
    | cs => do
      let (e, rest) ← keyValue? room n cs
      match skipBlanks rest with
      | ',' :: rest => do
        let rest := skipBlanks rest
        if rest.head? = some '\x7d' then none
        else
          let (es, rest) ← entries? room n rest
          some (e :: es, rest)
      | '\x7d' :: rest => some ([e], rest)
      | _ => none

def keyValue? (room : Nat) : Nat → List Char → Option ((List String × Literal) × List Char)
  | 0, _ => none
  | n + 1, cs => do
    let (path, rest) ← key? maxNesting cs
    match rest with
    | '=' :: rest => do
      let (x, rest) ← value? room n (skipBlanks rest)
      some ((path, x), rest)
    | _ => none

end

def line? (cs : List Char) : Option (Line × List Char) :=
  match cs with
  | '[' :: '[' :: rest => do
    let (path, rest) ← key? maxNesting rest
    match rest with
    | ']' :: ']' :: rest => some (.listHeader path, rest)
    | _ => none
  | '[' :: rest => do
    let (path, rest) ← key? maxNesting rest
    match rest with
    | ']' :: rest => some (.header path, rest)
    | _ => none
  | cs =>
    (keyValue? maxNesting (4 * cs.length + 4) cs).map fun ((path, x), rest) => (.entry path x, rest)

def lines? : Nat → List Char → Option (List Line)
  | 0, _ => none
  | n + 1, cs =>
    match skipSpace cs.length cs with
    | [] => some []
    | cs => do
      let (l, rest) ← line? (skipBlanks cs)
      let rest ← endOfLine? rest
      let ls ← lines? n rest
      some (l :: ls)

def read? (s : String) : Option (List Line) :=
  match s.toList with
  | '\uFEFF' :: cs => lines? (cs.length + 1) cs
  | cs => lines? (cs.length + 1) cs

end Notation

end LazyVectors.Settings
