import PegParsing.Number.Integer
import PegParsing.Number.Real
import PegParsing.Parser.Whitespace
import PegParsing.Value

/-!
# Grammars

A grammar is a parser written down. `Terminal` lists what grammars are built from and `Grammar` how
they are put together; `kind` tells skips from parsers whose value counts, without running them.

`denote` gives a grammar its parser, by recursion on the grammar and from the parsers of the rules
that it refers to. The value of a skip is `Value.nothing`.
-/

namespace PegParsing

inductive Terminal where
  | empty
  | literal (case : LetterCase) (text : String)
  | char (c : Char)
  | charIf (accepts : Char → Bool)
  | eof
  | eol
  /-- Always fails. It may stand for a parser of either kind. -/
  | fail (kind : Kind)
  | spacedChar (c : Char)
  | sign (policy : SignPolicy)
  | integer (format : IntFormat)
  | real (format : RealFormat)
  | symbols (table : SymbolTable Value)

/-- Where a repetition puts its items. -/
inductive Collection where
  | text
  | list
  | dict
  deriving DecidableEq, Repr

inductive Grammar where
  | terminal (t : Terminal)
  | emit (v : Value)
  | sequence (separator : Grammar) (parts : List Grammar)
  | choice (alternatives : List Grammar)
  /-- A choice that tells its alternatives apart. -/
  | variants (alternatives : List Grammar)
  | repetition (bounds : Bounds) (separator : Grammar) (item : Grammar)
  | collect (into : Collection) (bounds : Bounds) (separator : Grammar) (item : Grammar)
  | skip (g : Grammar)
  | opt (g : Grammar)
  | onlyWhere (must : Grammar) (g : Grammar)
  | exceptWhere (non : Grammar) (g : Grammar)
  | enabled (on : Bool) (g : Grammar)
  | check (accepts : Value → Bool) (g : Grammar)
  | map (f : Value → Value) (g : Grammar)
  | apply (f : Value → Except ErrorCode Value) (g : Grammar)
  | raw (g : Grammar)
  /-- What the rule of that name reads. -/
  | rule (name : String)

/-! ## Kinds -/

def Terminal.kind : Terminal → Kind
  | charIf _ | integer _ | real _ | symbols _ => .value
  | fail kind => kind
  | _ => .skip

mutual

def Grammar.kind : Grammar → Kind
  | .terminal t => t.kind
  | .sequence _ parts => if Grammar.anyValue parts then .value else .skip
  | .choice alternatives => if Grammar.anyValue alternatives then .value else .skip
  | .repetition _ _ g | .opt g | .onlyWhere _ g | .exceptWhere _ g | .enabled _ g | .check _ g =>
    g.kind
  | .skip _ => .skip
  | .emit _ | .variants _ | .collect .. | .map .. | .apply .. | .raw _ | .rule _ => .value

/-- Whether a value counts among those of the given grammars. -/
def Grammar.anyValue : List Grammar → Bool
  | [] => false
  | g :: gs => g.kind == .value || Grammar.anyValue gs

end

/-! ## Parsers -/

namespace Terminal

/-- A parser without a value as one that yields `Value.nothing`. -/
def ofSkip (p : Parser Unit) : Parser Value := p.map fun _ => .nothing

def parser : Terminal → Parser Value
  | empty => ofSkip .empty
  | literal case text => ofSkip (.literal case text.toList)
  | char c => ofSkip (.char c)
  | charIf accepts => (Parser.charIf accepts).map .char
  | eof => ofSkip .eof
  | eol => ofSkip .eol
  | fail _ => .failAt .alwaysFail
  | spacedChar c => ofSkip (.spacedChar c)
  | sign policy => ofSkip policy.parser
  | integer format => format.parser.map .int
  | real format => format.parser.map (.real format.format)
  | symbols table => table.parser

end Terminal

namespace Collection

/-- Appends a character; other values are no part of a text. -/
def pushChar (s : String) : Value → String
  | .char c => s.push c
  | _ => s

/-- Inserts a pair of a key and a value; other values are no entry. -/
def pushEntry (d : Dict Value) : Value → Dict Value
  | .tuple [.str k, v] => d.insert k v
  | _ => d

def collect : Collection → Repetition Value → Parser Value
  | text, r => (r.collect ⟨"", pushChar⟩).map .str
  | list, r => r.list.map .list
  | dict, r => (r.collect ⟨[], pushEntry⟩).map .dict

end Collection

/-- A repetition yields a list of what its items yield. -/
def Repetition.ofKind : Kind → Repetition Value → Parser Value
  | .skip, r => Terminal.ofSkip r.skip
  | .value, r => r.list.map .list

/-- An optional part yields whether it was there; an optional skip yields nothing. -/
def Parser.optOfKind : Kind → Parser Value → Parser Value
  | .skip, p => p.opt.map fun _ => .nothing
  | .value, p => p.opt.map fun
    | some v => .present v
    | none => .absent

mutual

/-- The parser of a grammar, its rules being read by `rules`. -/
def Grammar.denote (rules : String → Parser Value) : Grammar → Parser Value
  | .terminal t => t.parser
  | .emit v => .succeed v
  | .sequence sep parts =>
    (Parser.sequence (Grammar.denote rules sep) (Grammar.parts rules parts)).map .ofPayload
  | .choice gs => .choice (Grammar.parsers rules gs)
  | .variants gs => .taggedChoice .variant (Grammar.parsers rules gs)
  | .repetition b sep g =>
    Repetition.ofKind g.kind ⟨b, (Grammar.denote rules sep).skip, Grammar.denote rules g⟩
  | .collect into b sep g =>
    into.collect ⟨b, (Grammar.denote rules sep).skip, Grammar.denote rules g⟩
  | .skip g => Terminal.ofSkip (Grammar.denote rules g).skip
  | .opt g => Parser.optOfKind g.kind (Grammar.denote rules g)
  | .onlyWhere must g => .onlyWhere (Grammar.denote rules must) (Grammar.denote rules g)
  | .exceptWhere non g => .exceptWhere (Grammar.denote rules non) (Grammar.denote rules g)
  | .enabled on g => .enabled on (Grammar.denote rules g)
  | .check accepts g => .check accepts (Grammar.denote rules g)
  | .map f g => (Grammar.denote rules g).map f
  | .apply f g => (Grammar.denote rules g).apply f
  | .raw g => (Grammar.denote rules g).raw.map fun cs => .str (String.ofList cs)
  | .rule name => rules name

def Grammar.parsers (rules : String → Parser Value) : List Grammar → List (Parser Value)
  | [] => []
  | g :: gs => Grammar.denote rules g :: Grammar.parsers rules gs

def Grammar.parts (rules : String → Parser Value) : List Grammar → List (Part Value)
  | [] => []
  | g :: gs => ⟨g.kind, Grammar.denote rules g⟩ :: Grammar.parts rules gs

end

end PegParsing
