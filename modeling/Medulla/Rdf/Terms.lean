import Medulla.Index.Changes

/-! # RDF terms as graph rows

A resource is a graph node whose id is the canonical text of its term, `<iri>` or `_:label`. A literal is a
typed cell in the property object of its subject, `value` and `datatype` with the `lang` of a tagged one.
The term constructors are those of the term library: they accept or refuse a text, and a language tag is
normalised. -/

namespace Medulla.Rdf.Terms

open Library.OrderedTable Resource.Extension

/-! ### Terms -/

/-- A literal as its constructors leave it: plain text, tagged text, or text of another datatype. -/
inductive Literal
  | simple (value : String)
  | languageTagged (value language : String)
  | typed (value datatype : String)

inductive NamedOrBlankNode
  | namedNode (iri : String)
  | blankNode (label : String)
  deriving DecidableEq

inductive Term
  | namedNode (iri : String)
  | blankNode (label : String)
  | literal (lit : Literal)

structure Triple where
  subject : NamedOrBlankNode
  predicate : String
  object : Term

def xsdString : String := "http://www.w3.org/2001/XMLSchema#string"

def rdfLangString : String := "http://www.w3.org/1999/02/22-rdf-syntax-ns#langString"

namespace Literal

def value : Literal → String
  | simple value => value
  | languageTagged value _ => value
  | typed value _ => value

def datatype : Literal → String
  | simple _ => xsdString
  | languageTagged _ _ => rdfLangString
  | typed _ datatype => datatype

def language : Literal → Option String
  | languageTagged _ language => some language
  | _ => none

def newTypedLiteral (value datatype : String) : Literal :=
  if datatype = xsdString then simple value else typed value datatype

end Literal

/-- The checks of the term library: the texts `NamedNode::new` and `BlankNode::new` accept, and the language
tag `new_language_tagged_literal` stores. -/
structure Oxrdf where
  validIri : String → Bool
  validBlankNode : String → Bool
  languageTag : String → Option String

/-! ### Node ids -/

def iriId (iri : String) : String := "<" ++ iri ++ ">"

def blankId (label : String) : String := "_:" ++ label

def subjectId : NamedOrBlankNode → String
  | .namedNode iri => iriId iri
  | .blankNode label => blankId label

def termNodeId : Term → Option String
  | .namedNode iri => some (iriId iri)
  | .blankNode label => some (blankId label)
  | .literal _ => none

/-- `strip_prefix('<')` and `strip_suffix('>')`: the text between the angle brackets. -/
def stripAngles (id : String) : Option String :=
  match id.toList with
  | '<' :: rest => if rest.getLast? = some '>' then some (String.ofList rest.dropLast) else none
  | _ => none

def stripBlank (id : String) : Option String :=
  match id.toList with
  | '_' :: ':' :: rest => some (String.ofList rest)
  | _ => none

def parseSubject (ox : Oxrdf) (id : String) : Except String NamedOrBlankNode :=
  match stripAngles id with
  | some iri => if ox.validIri iri then .ok (.namedNode iri) else .error ("bad iri " ++ iri)
  | none =>
    match stripBlank id with
    | some label => if ox.validBlankNode label then .ok (.blankNode label) else .error ("bad bnode " ++ label)
    | none => .error ("node id is not a term: " ++ id)

def parseObject (ox : Oxrdf) (id : String) : Except String Term :=
  match stripAngles id with
  | some iri => if ox.validIri iri then .ok (.namedNode iri) else .error ("bad obj iri " ++ iri)
  | none =>
    match stripBlank id with
    | some label =>
      if ox.validBlankNode label then .ok (.blankNode label) else .error ("bad obj bnode " ++ label)
    | none => .error ("object node id is not a term: " ++ id)

/-- The predicate a relationship or a property key stands for. -/
def parsePredicate (ox : Oxrdf) (context p : String) : Except String String :=
  if ox.validIri p then .ok p else .error (context ++ " " ++ p)

def makeTriple (ox : Oxrdf) (s p o : String) : Except String Triple := do
  let subj ← parseSubject ox s
  let pred ← parsePredicate ox "bad pred" p
  let obj ← parseObject ox o
  .ok ⟨subj, pred, obj⟩

/-! ### Literal cells -/

def literalToCell (lit : Literal) : Json :=
  let m := insertRow "datatype" (.text lit.datatype) (insertRow "value" (.text lit.value) [])
  match lit.language with
  | some lang => .object (insertRow "lang" (.text lang) m)
  | none => .object m

def literalOf (ox : Oxrdf) (value : String) : Option String → Option String → Option Literal
  | some lang, _ => (ox.languageTag lang).map (.languageTagged value)
  | none, some datatype => if ox.validIri datatype then some (.newTypedLiteral value datatype) else none
  | none, none => some (.simple value)

def cellToLiteral (ox : Oxrdf) (cell : Json) : Option Literal := do
  let obj ← cell.asObject
  let value ← (lookupRow "value" obj).bind Json.asStr
  literalOf ox value ((lookupRow "lang" obj).bind Json.asStr) ((lookupRow "datatype" obj).bind Json.asStr)

def cellLexical : Json → Option String
  | .object m => (lookupRow "value" m).bind Json.asStr
  | .text s => some s
  | .unsigned n => some (toString n)
  | .number text => some text
  | .bool b => some (if b then "true" else "false")
  | _ => none

/-! ### Reading terms back -/

@[simp] theorem stripAngles_iriId (iri : String) : stripAngles (iriId iri) = some iri := by
  simp [stripAngles, iriId]

@[simp] theorem stripAngles_blankId (label : String) : stripAngles (blankId label) = none := by
  simp [stripAngles, blankId]

@[simp] theorem stripBlank_blankId (label : String) : stripBlank (blankId label) = some label := by
  simp [stripBlank, blankId]

theorem iriId_inj {a b : String} (h : iriId a = iriId b) : a = b := by
  have hstrip := stripAngles_iriId a
  rw [h, stripAngles_iriId] at hstrip
  exact (Option.some.inj hstrip).symm

theorem iriId_ne_blankId {a b : String} : iriId a ≠ blankId b := by
  intro h
  have hstrip := stripAngles_iriId a
  rw [h, stripAngles_blankId] at hstrip
  cases hstrip

theorem blankId_inj {a b : String} (h : blankId a = blankId b) : a = b := by
  have hstrip := stripBlank_blankId a
  rw [h, stripBlank_blankId] at hstrip
  exact (Option.some.inj hstrip).symm

theorem subjectId_inj : ∀ {s t : NamedOrBlankNode}, subjectId s = subjectId t → s = t
  | .namedNode _, .namedNode _, h => congrArg _ (iriId_inj h)
  | .blankNode _, .blankNode _, h => congrArg _ (blankId_inj h)
  | .namedNode _, .blankNode _, h => absurd h iriId_ne_blankId
  | .blankNode _, .namedNode _, h => absurd h.symm iriId_ne_blankId

theorem termNodeId_inj : ∀ {s t : Term} {id : String}, termNodeId s = some id →
    termNodeId t = some id → s = t
  | .namedNode _, .namedNode _, _, hs, ht => congrArg _ (iriId_inj (Option.some.inj (hs.trans ht.symm)))
  | .blankNode _, .blankNode _, _, hs, ht => congrArg _ (blankId_inj (Option.some.inj (hs.trans ht.symm)))
  | .namedNode _, .blankNode _, _, hs, ht =>
    absurd (Option.some.inj (hs.trans ht.symm)) iriId_ne_blankId
  | .blankNode _, .namedNode _, _, hs, ht =>
    absurd (Option.some.inj (hs.trans ht.symm)).symm iriId_ne_blankId

end Medulla.Rdf.Terms
