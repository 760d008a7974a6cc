import Staging.Binary64.Reader
import Staging.Signature.Basic
import Staging.Text.Blank
import Staging.Text.Split
import Staging.Value.Text

namespace Staging

namespace Parameter

def stars : Kind → String
  | .varPositional => "*"
  | .varKeyword => "**"
  | _ => ""

def text (cells : Cells) (p : Parameter) : String :=
  stars p.kind ++ p.name ++ (p.default.map fun v => "=" ++ v.shown cells).getD ""

end Parameter

namespace Signature

/-- The pieces of a signature's text; `announced` says that a star came before. -/
def textPieces (cells : Cells) (announced : Bool) : List Parameter → List String
  | [] => []
  | p :: ps =>
    let star := if p.kind = .keywordOnly ∧ !announced then ["*"] else []
    let slash :=
      if p.kind = .positionalOnly ∧ (ps.head?.map (·.kind)) ≠ some .positionalOnly then ["/"]
      else []
    let announced := announced || p.kind == .varPositional || p.kind == .keywordOnly
    star ++ p.text cells :: slash ++ textPieces cells announced ps

def text (cells : Cells) (sig : Signature) : String :=
  "(" ++ ", ".intercalate (textPieces cells false sig.parameters) ++ ")"

/-- Text between two quotes of one sort. -/
def readQuoted? (cs : List Char) : Option Value :=
  (Text.within? '\x27' '\x27' cs <|> Text.within? '"' '"' cs).map fun inner => .str (String.ofList inner)

def readNumber? (cs : List Char) : Option Value :=
  ((Decimal.readInt? cs).bind Decimal.toInt64?).map .int <|> (Binary64.read? cs).map .float

/-- A default value: a name of a constant, quoted text or a number. -/
def readDefault (cs : List Char) : Except SignatureError Value :=
  let text := String.ofList cs
  if text = "None" then .ok .absent
  else if text = "True" then .ok (.bool true)
  else if text = "False" then .ok (.bool false)
  else
    match readQuoted? cs <|> readNumber? cs with
    | some v => .ok v
    | none => .error (.unsupportedDefault text)

/-- What a piece of a signature's text says. -/
inductive Piece where
  | slash
  | star
  | parameter (p : Parameter)

/-- A plain parameter is positional until a star has been seen. -/
def readPlain (announced : Bool) (cs : List Char) : Except SignatureError Parameter :=
  let kind := if announced then .keywordOnly else .positionalOrKeyword
  match Text.cut? '=' cs with
  | none => .ok ⟨String.ofList cs, kind, none⟩
  | some (name, default) =>
    (readDefault (Text.trim default)).map fun v => ⟨String.ofList (Text.trim name), kind, some v⟩

def readPiece (announced : Bool) : List Char → Except SignatureError Piece
  | ['/'] => .ok .slash
  | ['*'] => .ok .star
  | '*' :: '*' :: name => .ok (.parameter ⟨String.ofList (Text.trim name), .varKeyword, none⟩)
  | '*' :: name => .ok (.parameter ⟨String.ofList (Text.trim name), .varPositional, none⟩)
  | cs => (readPlain announced cs).map .parameter

/-- A slash makes the parameters before it positional-only. -/
def closePositional (p : Parameter) : Parameter :=
  if p.kind = .positionalOrKeyword then { p with kind := .positionalOnly } else p

/-- Reads on after the parameters `done`. -/
def readPieces (announced : Bool) (done : List Parameter) :
    List (List Char) → Except SignatureError (List Parameter)
  | [] => .ok done
  | cs :: rest =>
    match readPiece announced cs with
    | .error e => .error e
    | .ok .slash => readPieces announced (done.map closePositional) rest
    | .ok .star => readPieces true done rest
    | .ok (.parameter p) => readPieces (announced || p.kind == .varPositional) (done ++ [p]) rest

/-- The pieces between commas, blanks around them and empty ones dropped. Parentheses around the
whole are optional. -/
def splitText (cs : List Char) : List (List Char) :=
  let cs := Text.trim cs
  ((Text.pieces ',' ((Text.within? '(' ')' cs).getD cs)).map Text.trim).filter (!·.isEmpty)

def read (text : String) : Except SignatureError Signature := do
  ofParameters (← readPieces false [] (splitText text.toList))

end Signature

end Staging
