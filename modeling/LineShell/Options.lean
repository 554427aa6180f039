import LineShell.Text.Digit

/-!
# Command-line options

`-c COMMAND` runs one line, `--strict` makes references to unset variables errors, `--history
PATH` names the history file, and `-h` or `--help` asks for help.  A long option may be shortened
as long as it can not be mistaken for another, and may have its value behind an equals sign.  A
value may follow `-c` in the same argument.

An argument that begins with a hyphen is taken for an option, unless it is the hyphen alone, a
negative number, or holds a space.  The shell takes no other arguments.
-/

namespace LineShell

structure Options where
  command : Option String
  strict : Bool
  history : Option String
  deriving DecidableEq

inductive Refusal where
  | help
  | usage
  deriving DecidableEq

def Refusal.status : Refusal → Int
  | .help => 0
  | .usage => 2

namespace Options

def initial : Options := ⟨none, false, none⟩

inductive Switch where
  | help
  | command
  | strict
  | history
  deriving DecidableEq

def spellings : List (String × Switch) :=
  [("-h", .help), ("--help", .help), ("-c", .command), ("--strict", .strict),
    ("--history", .history)]

/-- A value in the same argument as its option. -/
structure Attached where
  text : String
  /-- There is an equals sign before it. -/
  equals : Bool
  deriving DecidableEq

/-- An argument as it looks by itself. -/
inductive Token where
  | plain (text : String)
  | option (switch : Switch) (short : Bool) (attached : Option Attached)
  | unknown
  | ambiguous
  deriving DecidableEq

/-- Whether a text is a negative number, in digits of any script, with or without a point.  A line
feed at its end is overlooked. -/
def isNegativeNumber (argument : List Char) : Bool :=
  let isDecimal (c : Char) := (decimalValue? c).isSome
  match argument with
  | '-' :: body =>
      let body := if body.getLast? = some '\n' then body.dropLast else body
      match body.dropWhile isDecimal with
      | [] => !body.isEmpty
      | '.' :: fraction => !fraction.isEmpty && fraction.all isDecimal
      | _ => false
  | _ => false

def cutAtEquals (cs : List Char) : String × Option Attached :=
  match cs.dropWhile (· != '=') with
  | [] => (String.ofList cs, none)
  | _ :: value => (String.ofList (cs.takeWhile (· != '=')), some ⟨String.ofList value, true⟩)

def isShort (spelling : String) : Bool :=
  spelling.length = 2

/-- The options whose spelling begins with the given one, for a long option, or that have their
value right behind them, for a short one. -/
def candidates (cs : List Char) : List Token :=
  if cs.take 2 = ['-', '-'] then
    let (spelling, attached) := cutAtEquals cs
    (spellings.filter fun s => spelling.toList.isPrefixOf s.1.toList).map fun s =>
      .option s.2 (isShort s.1) attached
  else
    (spellings.filter fun s => s.1.toList = cs.take 2).map fun s =>
      .option s.2 true (some ⟨String.ofList (cs.drop 2), false⟩)

def classify (argument : String) : Token :=
  let cs := argument.toList
  if cs.head? != some '-' then .plain argument
  else
    match spellings.lookup argument with
    | some switch => .option switch (isShort argument) none
    | none =>
        let (spelling, attached) := cutAtEquals cs
        match if attached.isSome then spellings.lookup spelling else none with
        | some switch => .option switch (isShort spelling) attached
        | none =>
            if cs.length = 1 then .plain argument
            else
              match candidates cs with
              | [token] => token
              | _ :: _ :: _ => .ambiguous
              | [] =>
                  if isNegativeNumber cs || cs.contains ' ' then .plain argument else .unknown

/-- Short options without a value may follow each other in one argument.  Whether what follows
`-h` there can be read; `next` is the argument behind it. -/
def clusterReads (next : Option Token) : List Char → Bool
  | [] => true
  | '-' :: _ => false
  | 'h' :: '=' :: _ => false
  | 'h' :: rest => clusterReads next rest
  | ['c'] =>
      match next with
      | some (.plain _) => true
      | _ => false
  | _ => true

/-- Reads the arguments from left to right; `extra` tells whether there was one too many.  The
first thing that ends the reading counts. -/
def read (options : Options) (extra : Bool) : List Token → Except Refusal Options
  | [] => if extra then .error .usage else .ok options
  | .ambiguous :: _ => .error .usage
  | .plain _ :: rest => read options true rest
  | .unknown :: rest => read options true rest
  | .option .help _ none :: _ => .error .help
  | .option .help true (some attached) :: rest =>
      if attached.equals || attached.text.isEmpty then .error .usage
      else if clusterReads rest.head? attached.text.toList then .error .help
      else .error .usage
  | .option .help false (some _) :: _ => .error .usage
  | .option .strict _ none :: rest => read { options with strict := true } extra rest
  | .option .strict _ (some _) :: _ => .error .usage
  | .option .command _ (some attached) :: rest =>
      read { options with command := some attached.text } extra rest
  | .option .command _ none :: .plain text :: rest =>
      read { options with command := some text } extra rest
  | .option .command _ none :: _ => .error .usage
  | .option .history _ (some attached) :: rest =>
      read { options with history := some attached.text } extra rest
  | .option .history _ none :: .plain text :: rest =>
      read { options with history := some text } extra rest
  | .option .history _ none :: _ => .error .usage

/-- The options that a list of arguments asks for.  Behind two hyphens alone there are no options,
and as nothing else is allowed there, they must not be given at all. -/
def parse (arguments : List String) : Except Refusal Options :=
  let tokens := (arguments.takeWhile (· != "--")).map classify
  if tokens.contains .ambiguous then .error .usage
  else
    match read initial false tokens with
    | .error refusal => .error refusal
    | .ok options => if arguments.contains "--" then .error .usage else .ok options

end Options

end LineShell
