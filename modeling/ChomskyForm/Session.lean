import ChomskyForm.Conversion.Stages

/-!
# Sessions

A session holds the grammar under work and the record of isolated terminals, which outlives the
grammar, together with copies of grammars put aside under a name. An edit that fails leaves the
grammar as it was.
-/

namespace ChomskyForm

structure Session where
  grammar : Grammar := {}
  mapping : TerminalMapping := .empty
  saved : OrderedMap String Grammar := .empty
deriving DecidableEq

/-- A change to the grammar of a session. -/
inductive Edit
  | declare (left : Symbol)
  | addProduction (left : Symbol) (production : Production)
  | setStart (start : Symbol)
  | removeEpsilon
  | addEmptyStart
  | removeUnits
  | isolateTerminals
  | binarize
deriving DecidableEq

namespace Session

def withGrammar (session : Session) (grammar : Grammar) : Session := { session with grammar }

/-- Takes over the outcome of a change, or keeps the grammar and reports why there is none. -/
def settle (session : Session) :
    Except ConversionError Grammar → Session × Except ConversionError Unit
  | .ok grammar => (session.withGrammar grammar, .ok ())
  | .error fault => (session, .error fault)

def apply (session : Session) : Edit → Session × Except ConversionError Unit
  | .declare left => session.settle (.ok (session.grammar.declare left))
  | .addProduction left production =>
      session.settle (.ok (session.grammar.addProduction left production))
  | .setStart start => session.settle (.ok (session.grammar.setStart start))
  | .removeEpsilon =>
      session.settle (.ok (session.grammar.removeEpsilon session.grammar.nullable))
  | .addEmptyStart => session.settle (session.grammar.addEmptyStart.map Prod.snd)
  | .removeUnits => session.settle (.ok session.grammar.removeUnits)
  | .isolateTerminals =>
      let (mapping, outcome) := session.grammar.isolateTerminals session.mapping
      settle { session with mapping } outcome
  | .binarize => session.settle session.grammar.binarize

/-- The session after all edits, whether they succeed or not. -/
def applyAll (session : Session) (edits : List Edit) : Session :=
  edits.foldl (fun session edit => (session.apply edit).1) session

/-- Records by hand which nonterminal stands for a symbol. -/
def record (session : Session) (symbol isolated : Symbol) : Session :=
  { session with mapping := session.mapping.insert symbol isolated }

def forgetMapping (session : Session) : Session := { session with mapping := .empty }

def save (session : Session) (name : String) : Session :=
  { session with saved := session.saved.insert name session.grammar }

/-- A name under which nothing was saved stands for the empty grammar. -/
def savedGrammar (session : Session) (name : String) : Grammar :=
  (session.saved.get? name).getD {}

def restore (session : Session) (name : String) : Session :=
  session.withGrammar (session.savedGrammar name)

end Session

end ChomskyForm
