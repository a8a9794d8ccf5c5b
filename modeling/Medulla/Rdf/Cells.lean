import Medulla.Rdf.Lowering

/-! # Literals of a property object

The property object of an RDF node holds a type, one cell for each predicate, and an overflow object
with a list of further cells for each predicate. `Held` says which literals it holds. -/

namespace Medulla.Rdf.Cells

open Library.OrderedTable Resource.Extension Terms Triples Lowering

variable {ox : Oxrdf} {lit : Literal} {a p : String} {extras : Fields}

/-! ### Terms the constructors keep -/

def Absolute (iri : String) : Prop := ':' ∈ iri.toList

structure GoodIri (ox : Oxrdf) (iri : String) : Prop where
  valid : ox.validIri iri = true
  absolute : Absolute iri

def GoodLiteral (ox : Oxrdf) : Literal → Prop
  | .simple _ => ox.validIri xsdString = true
  | .languageTagged _ language => ox.languageTag language = some language
  | .typed _ datatype => ox.validIri datatype = true ∧ datatype ≠ xsdString

def GoodSubject (ox : Oxrdf) : NamedOrBlankNode → Prop
  | .namedNode iri => GoodIri ox iri
  | .blankNode label => ox.validBlankNode label = true

def GoodTerm (ox : Oxrdf) : Term → Prop
  | .namedNode iri => GoodIri ox iri
  | .blankNode label => ox.validBlankNode label = true
  | .literal lit => GoodLiteral ox lit

/-- A triple of absolute IRIs, blank nodes and normalised literals. -/
structure GoodTriple (ox : Oxrdf) (t : Triple) : Prop where
  subject : GoodSubject ox t.subject
  predicate : GoodIri ox t.predicate
  object : GoodTerm ox t.object

theorem GoodTriple.literal {t : Triple} (h : GoodTriple ox t) (hobject : t.object = .literal lit) :
    GoodLiteral ox lit := by
  have hterm := h.object
  rw [hobject] at hterm
  exact hterm

theorem Absolute.ne {b : String} (h : Absolute a) (hb : ':' ∉ b.toList) : a ≠ b := by
  rintro rfl
  exact hb h

theorem Absolute.ne_type (h : Absolute a) : a ≠ "type" := h.ne (by decide)

theorem Absolute.ne_graphName (h : Absolute a) : a ≠ "graph_name" := h.ne (by decide)

theorem Absolute.ne_multi (h : Absolute a) : a ≠ rdfMultiValueKey := h.ne (by decide)

theorem Absolute.ne_marker (h : Absolute a) : a ≠ namedGraphMarker := h.ne (by decide)

/-! ### Cells -/

theorem cellToLiteral_literalToCell : ∀ {lit : Literal}, GoodLiteral ox lit →
    cellToLiteral ox (literalToCell lit) = some lit
  | .simple value, h => by
    have hvalid : ox.validIri xsdString = true := h
    simp [cellToLiteral, literalToCell, Literal.language, Literal.datatype, Literal.value, Json.asObject,
      lookupRow_insertRow, lookupRow, Json.asStr, literalOf, Literal.newTypedLiteral, hvalid]
  | .languageTagged value language, h => by
    have htag : ox.languageTag language = some language := h
    simp [cellToLiteral, literalToCell, Literal.language, Literal.value, Json.asObject, lookupRow_insertRow,
      Json.asStr, literalOf, htag]
  | .typed value datatype, ⟨hvalid, hne⟩ => by
    simp [cellToLiteral, literalToCell, Literal.language, Literal.datatype, Literal.value, Json.asObject,
      lookupRow_insertRow, lookupRow, Json.asStr, literalOf, Literal.newTypedLiteral, hvalid, hne]

theorem literalToCell_inj {a b : Literal} (ha : GoodLiteral ox a) (hb : GoodLiteral ox b)
    (h : literalToCell a = literalToCell b) : a = b := by
  have hcell := cellToLiteral_literalToCell ha
  rw [h, cellToLiteral_literalToCell hb] at hcell
  exact (Option.some.inj hcell).symm

def GoodCell (ox : Oxrdf) (cell : Json) : Prop := ∃ lit, GoodLiteral ox lit ∧ cell = literalToCell lit

structure OverflowMap (ox : Oxrdf) (extras : Fields) : Prop where
  sorted : extras.Pairwise fun a b => a.1 < b.1
  lists : ∀ p v, lookupRow p extras = some v →
    GoodIri ox p ∧ ∃ values, v = .array values ∧ ∀ cell ∈ values, GoodCell ox cell

structure CellMap (ox : Oxrdf) (map : Fields) : Prop where
  sorted : map.Pairwise fun a b => a.1 < b.1
  rows : ∀ k v, lookupRow k map = some v →
    (k = "type" ∧ ∃ iri, v = .text iri ∧ iri ≠ namedGraphMarker) ∨
      (k = rdfMultiValueKey ∧ ∃ extras, v = .object extras ∧ OverflowMap ox extras) ∨
      (GoodIri ox k ∧ GoodCell ox v)

/-- A property object holds a literal of a predicate: in its cell, or in its overflow list. -/
def Held (map : Fields) (p : String) (lit : Literal) : Prop :=
  lookupRow p map = some (literalToCell lit) ∨
    ∃ extras values, lookupRow rdfMultiValueKey map = some (.object extras) ∧
      lookupRow p extras = some (.array values) ∧ literalToCell lit ∈ values

theorem cellMap_nil : CellMap ox [] := ⟨List.Pairwise.nil, fun _ _ h => by cases h⟩

theorem not_held_nil : ¬Held [] p lit := by
  rintro (h | ⟨_, _, h, -⟩)
  · cases h
  · cases h

theorem overflowMap_nil : OverflowMap ox [] := ⟨List.Pairwise.nil, fun _ _ h => by cases h⟩

variable {map : Fields}

theorem CellMap.insert (h : CellMap ox map) {k : String} {v : Json}
    (hrow : (k = "type" ∧ ∃ iri, v = .text iri ∧ iri ≠ namedGraphMarker) ∨
      (k = rdfMultiValueKey ∧ ∃ extras, v = .object extras ∧ OverflowMap ox extras) ∨
      (GoodIri ox k ∧ GoodCell ox v)) : CellMap ox (insertRow k v map) := by
  refine ⟨sorted_insertRow k v h.sorted, fun k₁ v₁ hlookup => ?_⟩
  rw [lookupRow_insertRow] at hlookup
  split_ifs at hlookup with heq
  · obtain rfl := Option.some.inj hlookup
    rw [heq]
    exact hrow
  · exact h.rows k₁ v₁ hlookup

/-! ### Writing a type -/

theorem CellMap.insertType (h : CellMap ox map) {iri : String} (hiri : iri ≠ namedGraphMarker) :
    CellMap ox (insertRow "type" (.text iri) map) :=
  h.insert (Or.inl ⟨rfl, iri, rfl, hiri⟩)

theorem held_insertType {iri : String} (hp : Absolute p) :
    Held (insertRow "type" (.text iri) map) p lit ↔ Held map p lit := by
  have hmulti : rdfMultiValueKey ≠ "type" := by decide
  unfold Held
  rw [lookupRow_insertRow, if_neg hp.ne_type, lookupRow_insertRow, if_neg hmulti]

theorem held_foldType {q : String} {object : Term} (hq : Absolute q) :
    Held (foldType map p object) q lit ↔ Held map q lit := by
  unfold foldType
  split
  · split_ifs
    · exact held_insertType hq
    · rfl
  · rfl

theorem CellMap.foldType (h : CellMap ox map) : ∀ {object : Term},
    GoodTerm ox object → CellMap ox (foldType map p object)
  | .namedNode iri, hiri => by
    unfold Lowering.foldType
    split_ifs
    · exact h.insertType (GoodIri.absolute hiri).ne_marker
    · exact h
  | .blankNode _, _ => h
  | .literal _, _ => h

/-! ### Writing a cell -/

theorem CellMap.insertCell (h : CellMap ox map) (hp : GoodIri ox p) (hlit : GoodLiteral ox lit) :
    CellMap ox (insertRow p (literalToCell lit) map) :=
  h.insert (Or.inr (Or.inr ⟨hp, lit, hlit, rfl⟩))

theorem held_insertCell {q : String} {other : Literal} (hp : GoodIri ox p)
    (hlit : GoodLiteral ox lit) (hother : GoodLiteral ox other) (hfree : lookupRow p map = none) :
    Held (insertRow p (literalToCell lit) map) q other ↔ Held map q other ∨ (q = p ∧ other = lit) := by
  unfold Held
  rw [lookupRow_insertRow, lookupRow_insertRow, if_neg hp.absolute.ne_multi.symm]
  by_cases hq : q = p
  · subst hq
    rw [if_pos rfl, hfree]
    constructor
    · rintro (hcell | hover)
      · exact Or.inr ⟨rfl, (literalToCell_inj hlit hother (Option.some.inj hcell)).symm⟩
      · exact Or.inl (Or.inr hover)
    · rintro ((hcell | hover) | ⟨-, rfl⟩)
      · cases hcell
      · exact Or.inr hover
      · exact Or.inl rfl
  · rw [if_neg hq]
    simp [hq]

/-! ### Appending to an overflow list -/

theorem CellMap.overflowObject (h : CellMap ox map) : ∃ extras, overflowObject map = some extras ∧
    OverflowMap ox extras ∧
      (lookupRow rdfMultiValueKey map = some (.object extras) ∨
        (lookupRow rdfMultiValueKey map = none ∧ extras = [])) := by
  unfold Triples.overflowObject
  cases hlookup : lookupRow rdfMultiValueKey map with
  | none => exact ⟨[], rfl, overflowMap_nil, Or.inr ⟨rfl, rfl⟩⟩
  | some v =>
    rcases h.rows _ _ hlookup with ⟨hkey, -⟩ | ⟨-, extras, rfl, hextras⟩ | ⟨hiri, -⟩
    · exact absurd hkey (by decide)
    · exact ⟨extras, rfl, hextras, Or.inl rfl⟩
    · exact absurd rfl hiri.absolute.ne_multi

theorem OverflowMap.overflowList (h : OverflowMap ox extras) (p : String) :
    ∃ values, overflowList extras p = some values ∧ (∀ cell ∈ values, GoodCell ox cell) ∧
      (lookupRow p extras = some (.array values) ∨ (lookupRow p extras = none ∧ values = [])) := by
  unfold Triples.overflowList
  cases hlookup : lookupRow p extras with
  | none => exact ⟨[], rfl, fun cell hcell => absurd hcell List.not_mem_nil, Or.inr ⟨rfl, rfl⟩⟩
  | some v =>
    obtain ⟨-, values, rfl, hvalues⟩ := h.lists _ _ hlookup
    exact ⟨values, rfl, hvalues, Or.inl rfl⟩

theorem CellMap.overflow (h : CellMap ox map) (p : String) : ∃ extras values,
    Triples.overflowObject map = some extras ∧ overflowList extras p = some values ∧ OverflowMap ox extras ∧
      (∀ cell ∈ values, GoodCell ox cell) ∧
      ∀ q lit, (∃ extras values, lookupRow rdfMultiValueKey map = some (.object extras) ∧
          lookupRow q extras = some (.array values) ∧ literalToCell lit ∈ values) ↔
        (∃ values, lookupRow q extras = some (.array values) ∧ literalToCell lit ∈ values) := by
  obtain ⟨extras, hobject, hextras, hstored⟩ := h.overflowObject
  obtain ⟨values, hlist, hvalues, -⟩ := hextras.overflowList p
  refine ⟨extras, values, hobject, hlist, hextras, hvalues, fun q lit => ?_⟩
  rcases hstored with hstored | ⟨hnone, rfl⟩
  · rw [hstored]
    constructor
    · rintro ⟨_, values, hsame, hlookup, hmem⟩
      cases hsame
      exact ⟨values, hlookup, hmem⟩
    · rintro ⟨values, hlookup, hmem⟩
      exact ⟨extras, values, rfl, hlookup, hmem⟩
  · rw [hnone]
    constructor
    · rintro ⟨_, _, hsome, -⟩
      cases hsome
    · rintro ⟨_, hlookup, -⟩
      cases hlookup

theorem CellMap.setOverflow (h : CellMap ox map) (hextras : OverflowMap ox extras)
    {values : List Json} (hvalues : ∀ cell ∈ values, GoodCell ox cell) (hp : GoodIri ox p)
    (hlit : GoodLiteral ox lit) :
    CellMap ox (setOverflow map extras p (values ++ [literalToCell lit])) := by
  refine h.insert (Or.inr (Or.inl ⟨rfl, _, rfl, sorted_insertRow _ _ hextras.sorted, fun q v hlookup => ?_⟩))
  rw [lookupRow_insertRow] at hlookup
  split_ifs at hlookup with heq
  · obtain rfl := Option.some.inj hlookup
    refine ⟨heq ▸ hp, _, rfl, fun cell hcell => ?_⟩
    rcases List.mem_append.mp hcell with hcell | hcell
    · exact hvalues cell hcell
    · exact ⟨lit, hlit, List.mem_singleton.mp hcell⟩
  · exact hextras.lists q v hlookup

theorem OverflowMap.mem_append (h : OverflowMap ox extras) {q : String} {values : List Json}
    (hlist : Triples.overflowList extras p = some values) {other : Literal}
    (hlit : GoodLiteral ox lit) (hother : GoodLiteral ox other) :
    (∃ cells, lookupRow q (insertRow p (.array (values ++ [literalToCell lit])) extras) =
        some (.array cells) ∧ literalToCell other ∈ cells) ↔
      (∃ cells, lookupRow q extras = some (.array cells) ∧ literalToCell other ∈ cells) ∨
        (q = p ∧ other = lit) := by
  obtain ⟨values', hlist', -, hstored⟩ := h.overflowList p
  obtain rfl : values = values' := Option.some.inj (hlist.symm.trans hlist')
  rw [lookupRow_insertRow]
  by_cases hq : q = p
  · subst hq
    rw [if_pos rfl]
    constructor
    · rintro ⟨_, hsame, hmem⟩
      cases hsame
      rcases List.mem_append.mp hmem with hmem | hmem
      · rcases hstored with hstored | ⟨-, rfl⟩
        · exact Or.inl ⟨values, hstored, hmem⟩
        · cases hmem
      · exact Or.inr ⟨rfl, literalToCell_inj hother hlit (List.mem_singleton.mp hmem)⟩
    · rintro (⟨cells, hlookup, hmem⟩ | ⟨-, rfl⟩)
      · refine ⟨_, rfl, List.mem_append_left _ ?_⟩
        rcases hstored with hstored | ⟨hnone, -⟩
        · rw [hstored] at hlookup
          cases hlookup
          exact hmem
        · rw [hnone] at hlookup
          cases hlookup
      · exact ⟨_, rfl, List.mem_append_right _ (List.mem_singleton.mpr rfl)⟩
  · rw [if_neg hq]
    simp [hq]

theorem CellMap.append (h : CellMap ox map) (hp : GoodIri ox p) (hlit : GoodLiteral ox lit) :
    ∃ extras values,
    Triples.overflowObject map = some extras ∧ Triples.overflowList extras p = some values ∧
      CellMap ox (Triples.setOverflow map extras p (values ++ [literalToCell lit])) ∧
      (∀ q other, GoodIri ox q → GoodLiteral ox other →
        (Held (Triples.setOverflow map extras p (values ++ [literalToCell lit])) q other ↔
          Held map q other ∨ (q = p ∧ other = lit))) ∧
      (literalToCell lit ∈ values → Held map p lit) := by
  obtain ⟨extras, values, hobject, hlist, hextras, hvalues, hholds⟩ := h.overflow p
  refine ⟨extras, values, hobject, hlist, h.setOverflow hextras hvalues hp hlit, ?_, ?_⟩
  · intro q other hq hother
    unfold Held
    rw [hholds q other, or_assoc, ← hextras.mem_append hlist hlit hother]
    unfold Triples.setOverflow
    rw [lookupRow_insertRow, if_neg hq.absolute.ne_multi, lookupRow_insertRow, if_pos rfl]
    refine or_congr_right ⟨?_, ?_⟩
    · rintro ⟨_, cells, hsame, hlookup, hmem⟩
      cases hsame
      exact ⟨cells, hlookup, hmem⟩
    · rintro ⟨cells, hlookup, hmem⟩
      exact ⟨_, cells, rfl, hlookup, hmem⟩
  · intro hmem
    refine Or.inr ((hholds p lit).mpr ?_)
    obtain ⟨values', hlist', -, hstored⟩ := hextras.overflowList p
    obtain rfl : values = values' := Option.some.inj (hlist.symm.trans hlist')
    rcases hstored with hstored | ⟨-, rfl⟩
    · exact ⟨values, hstored, hmem⟩
    · cases hmem

/-- **Merging a cell adds its literal**, whether or not that changes the object. -/
theorem CellMap.mergedProperty (h : CellMap ox map) (hp : GoodIri ox p) (hlit : GoodLiteral ox lit) :
    CellMap ox ((mergedProperty map p (literalToCell lit)).getD map) ∧
      ∀ q other, GoodIri ox q → GoodLiteral ox other →
        (Held ((mergedProperty map p (literalToCell lit)).getD map) q other ↔
          Held map q other ∨ (q = p ∧ other = lit)) := by
  have hsame : Held map p lit → CellMap ox ((none : Option Fields).getD map) ∧
      ∀ q other, GoodIri ox q → GoodLiteral ox other →
        (Held ((none : Option Fields).getD map) q other ↔ Held map q other ∨ (q = p ∧ other = lit)) := by
    intro hheld
    refine ⟨h, fun q other _ _ => ⟨Or.inl, ?_⟩⟩
    rintro (hold | ⟨rfl, rfl⟩)
    · exact hold
    · exact hheld
  unfold Triples.mergedProperty
  split_ifs with hcell hfound
  · exact hsame (Or.inl (by simpa using hcell))
  · obtain ⟨extras, values, hobject, hlist, hmap, hheld, hmem⟩ := h.append hp hlit
    have hcells : overflowCells map p = some (extras, values) := by
      rw [overflowCells, hobject]
      change (Triples.overflowList extras p).bind _ = _
      rw [hlist]
      rfl
    rw [hcells]
    dsimp only
    split_ifs with hcontains
    · exact hsame (hmem (by simpa using hcontains))
    · exact ⟨hmap, hheld⟩
  · have hfree : lookupRow p map = none := by simpa using hfound
    exact ⟨h.insertCell hp hlit, fun q other _ hother => held_insertCell hp hlit hother hfree⟩

/-! ### Export -/

theorem collect_ok {α β : Type} {f : α → Except String (List β)} {R : α → β → Prop} : ∀ {xs : List α},
    (∀ x ∈ xs, ∃ ys, f x = .ok ys ∧ ∀ y, y ∈ ys ↔ R x y) →
      ∃ zs, collect f xs = .ok zs ∧ ∀ y, y ∈ zs ↔ ∃ x ∈ xs, R x y
  | [], _ => ⟨[], rfl, by simp⟩
  | x :: xs, h => by
    obtain ⟨ys, hys, hmem⟩ := h x (.head _)
    obtain ⟨zs, hzs, hrest⟩ := collect_ok fun x' hx' => h x' (.tail _ hx')
    refine ⟨ys ++ zs, ?_, fun y => ?_⟩
    · unfold collect
      rw [hys, hzs]
      rfl
    · rw [List.mem_append, hmem, hrest]
      simp

theorem parseSubject_subjectId : ∀ {subject : NamedOrBlankNode}, GoodSubject ox subject →
    parseSubject ox (subjectId subject) = .ok subject
  | .namedNode iri, h => by simp [parseSubject, subjectId, h.valid]
  | .blankNode label, h => by
    have hvalid : ox.validBlankNode label = true := h
    simp [parseSubject, subjectId, hvalid]

theorem parsePredicate_ok {context : String} (h : GoodIri ox p) :
    parsePredicate ox context p = .ok p := by
  simp [parsePredicate, h.valid]

variable {subject : NamedOrBlankNode}

theorem exportCell_ok (hsubject : GoodSubject ox subject) (hlit : GoodLiteral ox lit) :
    exportCell ox (subjectId subject) (.ok p) (literalToCell lit) = .ok [⟨subject, p, .literal lit⟩] := by
  unfold exportCell
  rw [cellToLiteral_literalToCell hlit]
  rw [parseSubject_subjectId hsubject]
  rfl

theorem OverflowMap.exported (h : OverflowMap ox extras) (hsubject : GoodSubject ox subject) :
    ∃ out, exportMultivalueCell ox (subjectId subject) (.object extras) = .ok out ∧
      ∀ t, t ∈ out ↔ ∃ p values lit, lookupRow p extras = some (.array values) ∧ literalToCell lit ∈ values ∧
        GoodIri ox p ∧ GoodLiteral ox lit ∧ t = ⟨subject, p, .literal lit⟩ := by
  have hrow : ∀ row ∈ extras, ∃ out,
      (do let pred ← parsePredicate ox "bad pred iri" row.1
          collect (exportCell ox (subjectId subject) (.ok pred)) (row.2.asArray.getD [])) = .ok out ∧
      ∀ t, t ∈ out ↔ ∃ values lit, row.2 = .array values ∧ literalToCell lit ∈ values ∧
        GoodIri ox row.1 ∧ GoodLiteral ox lit ∧ t = ⟨subject, row.1, .literal lit⟩ := by
    rintro ⟨p, v⟩ hmem
    obtain ⟨hp, values, rfl, hvalues⟩ := h.lists p v ((mem_iff_lookupRow h.sorted).mp hmem)
    rw [parsePredicate_ok hp]
    have hcells : ∀ cell ∈ values, ∃ out, exportCell ox (subjectId subject) (.ok p) cell = .ok out ∧
        ∀ t, t ∈ out ↔ ∃ lit, cell = literalToCell lit ∧ GoodLiteral ox lit ∧
          t = ⟨subject, p, .literal lit⟩ := by
      intro cell hcell
      obtain ⟨lit, hlit, rfl⟩ := hvalues cell hcell
      refine ⟨_, exportCell_ok hsubject hlit, fun t => ?_⟩
      rw [List.mem_singleton]
      constructor
      · rintro rfl
        exact ⟨lit, rfl, hlit, rfl⟩
      · rintro ⟨other, heq, hother, rfl⟩
        rw [literalToCell_inj hlit hother heq]
    obtain ⟨out, hout, hiff⟩ := collect_ok hcells
    refine ⟨out, hout, fun t => ?_⟩
    rw [hiff]
    constructor
    · rintro ⟨cell, hcell, lit, rfl, hlit, rfl⟩
      exact ⟨values, lit, rfl, hcell, hp, hlit, rfl⟩
    · rintro ⟨_, lit, hsame, hcell, -, hlit, rfl⟩
      cases hsame
      exact ⟨_, hcell, lit, rfl, hlit, rfl⟩
  obtain ⟨out, hout, hiff⟩ := collect_ok hrow
  refine ⟨out, hout, fun t => ?_⟩
  rw [hiff]
  constructor
  · rintro ⟨⟨p, v⟩, hmem, values, lit, rfl, hrest⟩
    exact ⟨p, values, lit, (mem_iff_lookupRow h.sorted).mp hmem, hrest⟩
  · rintro ⟨p, values, lit, hlookup, hrest⟩
    exact ⟨(p, .array values), (mem_iff_lookupRow h.sorted).mpr hlookup, values, lit, rfl, hrest⟩

theorem CellMap.exportNodeCell (h : CellMap ox map) (hsubject : GoodSubject ox subject)
    {row : String × Json} (hmem : row ∈ map) :
    ∃ out, exportNodeCell ox (subjectId subject) row = .ok out ∧ ∀ t, t ∈ out ↔
      (∃ lit, GoodIri ox row.1 ∧ row.2 = literalToCell lit ∧ GoodLiteral ox lit ∧
        t = ⟨subject, row.1, .literal lit⟩) ∨
      (row.1 = rdfMultiValueKey ∧ ∃ extras p values lit, row.2 = .object extras ∧
        lookupRow p extras = some (.array values) ∧ literalToCell lit ∈ values ∧ GoodIri ox p ∧
        GoodLiteral ox lit ∧ t = ⟨subject, p, .literal lit⟩) := by
  obtain ⟨k, v⟩ := row
  unfold Lowering.exportNodeCell
  rcases h.rows k v ((mem_iff_lookupRow h.sorted).mp hmem) with
    ⟨rfl, iri, rfl, -⟩ | ⟨rfl, extras, rfl, hextras⟩ | ⟨hk, lit, hlit, rfl⟩
  · have hmulti : "type" ≠ rdfMultiValueKey := by decide
    refine ⟨[], by rw [if_neg hmulti, if_pos (Or.inl rfl)], fun t => ?_⟩
    refine iff_of_false List.not_mem_nil ?_
    rintro (⟨lit, hiri, -⟩ | ⟨heq, -⟩)
    · exact hiri.absolute.ne_type rfl
    · exact hmulti heq
  · obtain ⟨out, hout, hiff⟩ := hextras.exported hsubject
    refine ⟨out, by rw [if_pos rfl]; exact hout, fun t => ?_⟩
    rw [hiff]
    constructor
    · rintro ⟨p, values, lit, hrest⟩
      exact Or.inr ⟨rfl, extras, p, values, lit, rfl, hrest⟩
    · rintro (⟨lit, hiri, -⟩ | ⟨-, _, p, values, lit, hsame, hrest⟩)
      · exact absurd rfl hiri.absolute.ne_multi
      · cases hsame
        exact ⟨p, values, lit, hrest⟩
  · have hplain : ¬(k = "type" ∨ k = "graph_name") := by
      rintro (heq | heq)
      · exact hk.absolute.ne_type heq
      · exact hk.absolute.ne_graphName heq
    refine ⟨[⟨subject, k, .literal lit⟩], ?_, fun t => ?_⟩
    · rw [if_neg hk.absolute.ne_multi, if_neg hplain, parsePredicate_ok hk]
      exact exportCell_ok hsubject hlit
    · rw [List.mem_singleton]
      constructor
      · rintro rfl
        exact Or.inl ⟨lit, hk, rfl, hlit, rfl⟩
      · rintro (⟨other, -, heq, hother, rfl⟩ | ⟨heq, -⟩)
        · rw [literalToCell_inj hlit hother heq]
        · exact absurd heq hk.absolute.ne_multi

/-- **Export gives the literals held.** -/
theorem CellMap.exported (h : CellMap ox map) (hsubject : GoodSubject ox subject) :
    ∃ out, collect (Lowering.exportNodeCell ox (subjectId subject)) map = .ok out ∧
      ∀ t, t ∈ out ↔ ∃ p lit, GoodIri ox p ∧ GoodLiteral ox lit ∧ Held map p lit ∧
        t = ⟨subject, p, .literal lit⟩ := by
  obtain ⟨out, hout, hiff⟩ := collect_ok fun row hrow => h.exportNodeCell hsubject hrow
  refine ⟨out, hout, fun t => ?_⟩
  rw [hiff]
  constructor
  · rintro ⟨⟨k, v⟩, hmem, ⟨lit, hk, hcell, hlit, rfl⟩ |
      ⟨heq, extras, p, values, lit, hv, hlookup, hvalue, hp, hlit, rfl⟩⟩
    · refine ⟨k, lit, hk, hlit, Or.inl ?_, rfl⟩
      rw [← hcell]
      exact (mem_iff_lookupRow h.sorted).mp hmem
    · refine ⟨p, lit, hp, hlit, Or.inr ⟨extras, values, ?_, hlookup, hvalue⟩, rfl⟩
      rw [← hv, ← heq]
      exact (mem_iff_lookupRow h.sorted).mp hmem
  · rintro ⟨p, lit, hp, hlit, hcell | ⟨extras, values, hextras, hlookup, hvalue⟩, rfl⟩
    · exact ⟨(p, literalToCell lit), (mem_iff_lookupRow h.sorted).mpr hcell,
        Or.inl ⟨lit, hp, rfl, hlit, rfl⟩⟩
    · exact ⟨(rdfMultiValueKey, .object extras), (mem_iff_lookupRow h.sorted).mpr hextras,
        Or.inr ⟨rfl, extras, p, values, lit, rfl, hlookup, hvalue, hp, hlit, rfl⟩⟩

end Medulla.Rdf.Cells
