import Formula.Proofs.Rendering
import Formula.Report

/-!
# What a report says

The text of a report can be decoded, and what was reported stands in its fields, whatever characters
the text and the lexemes hold. Two failures that are reported alike are the same failure, once a
parenthesis has its own sign for a lexeme: the two classes of parentheses share a name.
-/

namespace Formula

namespace Token

/-- What the report of a token says: its class, its lexeme and its position. -/
def document (t : Token) : Document :=
  .array [.string t.kind.label, .string t.lexeme, .natural t.index]

/-- A parenthesis has its own sign for a lexeme. -/
def HasPlainParens (t : Token) : Prop :=
  (t.kind = .parenOpen → t.lexeme = "(") ∧ (t.kind = .parenClose → t.lexeme = ")")

theorem document_listToJson (tokens : List Token) :
    (listToJson tokens).document = .array (tokens.map document) := by
  rw [listToJson, Json.document, Json.documents_eq_map, List.map_map]
  rfl

/-- Tokens are told apart by what is said of them, since the lexemes tell the parentheses apart. -/
theorem document_injective {a b : Token} (ha : a.HasPlainParens) (hb : b.HasPlainParens)
    (h : a.document = b.document) : a = b := by
  obtain ⟨kindA, lexemeA, indexA⟩ := a
  obtain ⟨kindB, lexemeB, indexB⟩ := b
  simp only [document, Document.natural, Document.array.injEq, List.cons.injEq,
    Document.string.injEq, Document.number.injEq, and_true, true_and] at h
  obtain ⟨hlabel, rfl, hindex⟩ := h
  obtain rfl := Decimal.normalize_natural_injective hindex
  simp only [HasPlainParens] at ha hb
  cases kindA <;> cases kindB <;> simp_all [TokenKind.label]

theorem map_document_injective {as bs : List Token} (has : ∀ t ∈ as, t.HasPlainParens)
    (hbs : ∀ t ∈ bs, t.HasPlainParens) (h : as.map document = bs.map document) : as = bs := by
  induction as generalizing bs with
  | nil => simpa using h.symm
  | cons a as ih =>
    cases bs with
    | nil => cases h
    | cons b bs =>
      obtain ⟨ha, has⟩ := List.forall_mem_cons.mp has
      obtain ⟨hb, hbs⟩ := List.forall_mem_cons.mp hbs
      obtain ⟨hfirst, hrest⟩ := List.cons.inj h
      rw [document_injective ha hb hfirst, ih has hbs hrest]

end Token

/-- A document says what a failure is: the text and the position, the token and the kind, and the
tokens if there are any to show. -/
structure Document.Reports (doc : Document) (d : Diagnostic) : Prop where
  text : doc.get? "text" = some (.string d.text)
  index : doc.get? "index" = some (.natural d.index)
  token : doc.get? "token" = some (.string d.token)
  kind : doc.get? "type" = some (.string d.kind.label)
  tokens : doc.get? "tokens" = d.tokens.map fun tokens => .array (tokens.map Token.document)

/-- A document says what an expression is: its text, its tokens, the instructions of its program as
they are shown, and its value unless that is no number. -/
structure Document.Describes (doc : Document) (e : Expression) : Prop where
  text : doc.get? "text" = some (.string e.text)
  tokens : doc.get? "tokens" = some (.array (e.tokens.map Token.document))
  program : doc.get? "postfix" = some (.array (e.program.map fun i => .string i.display))
  value : doc.get? "value" = some
    (if e.evaluate.isNaN || e.evaluate.isInf then .null
      else .number (Binary64.isNegative e.evaluate)
        (Decimal.shortest .even (Binary64.magnitude e.evaluate)))

namespace Diagnostic

/-- The parentheses among the tokens have their own signs for lexemes. -/
def HasPlainParens (d : Diagnostic) : Prop :=
  ∀ tokens ∈ d.tokens, ∀ t ∈ tokens, t.HasPlainParens

theorem reports_document (d : Diagnostic) : d.toJson.document.Reports d := by
  obtain ⟨⟨kind, index, token⟩, text, tokens⟩ := d
  cases tokens with
  | none =>
    constructor <;> simp [toJson, Json.document, Json.entries, Document.get?, List.lookup_cons]
  | some tokens =>
    constructor <;>
      simp [toJson, Json.document, Json.entries, Document.get?, List.lookup_cons,
        Token.document_listToJson]

end Diagnostic

/-- What a document says is one failure at most. -/
theorem Document.Reports.unique {doc : Document} {a b : Diagnostic} (ha : doc.Reports a)
    (hb : doc.Reports b) (hplainA : a.HasPlainParens) (hplainB : b.HasPlainParens) : a = b := by
  have htext : a.text = b.text := by simpa using ha.text.symm.trans hb.text
  have htoken : a.token = b.token := by simpa using ha.token.symm.trans hb.token
  have hindex : a.index = b.index := by
    have hsame := ha.index.symm.trans hb.index
    simp only [Document.natural, Option.some.injEq, Document.number.injEq, true_and] at hsame
    exact Decimal.normalize_natural_injective hsame
  have hkind : a.kind = b.kind := by
    have hsame := ha.kind.symm.trans hb.kind
    exact FaultKind.label_injective (by simpa using hsame)
  have htokens : a.tokens = b.tokens := by
    have hsame := ha.tokens.symm.trans hb.tokens
    cases hA : a.tokens with
    | none => simpa [hA, eq_comm] using hsame
    | some as =>
      cases hB : b.tokens with
      | none => simp [hA, hB] at hsame
      | some bs =>
        simp only [hA, hB, Option.map_some, Option.some.injEq, Document.array.injEq] at hsame
        rw [Token.map_document_injective (hplainA as hA) (hplainB bs hB) hsame]
  obtain ⟨⟨kindA, indexA, tokenA⟩, textA, tokensA⟩ := a
  obtain ⟨⟨kindB, indexB, tokenB⟩, textB, tokensB⟩ := b
  simp only at htext htoken hindex hkind htokens
  rw [htext, htoken, hindex, hkind, htokens]

theorem Expression.describes_document (e : Expression) : e.toJson.document.Describes e := by
  constructor <;>
    simp [toJson, Json.document, Json.entries, Json.documents_eq_map, Document.get?, List.lookup_cons,
      Token.document_listToJson, Function.comp_def]

/-- Reports are faithful, whatever the texts and lexemes hold: a report is a JSON text without
control characters, it is decoded to what was reported, and no two failures have the same report.
-/
theorem reports_faithful :
    (∀ d : Diagnostic, Json.IsVisible d.toJson.compress.toList ∧
      ∃ doc : Document, doc.IsText d.toJson.compress.toList ∧
        Document.decode? d.toJson.compress = some doc ∧ doc.Reports d) ∧
    (∀ a b : Diagnostic, a.HasPlainParens → b.HasPlainParens →
      (a.toJson.compress = b.toJson.compress ↔ a = b)) ∧
    ∀ e : Expression, Json.IsVisible e.toJson.compress.toList ∧
      ∃ doc : Document, doc.IsText e.toJson.compress.toList ∧
        Document.decode? e.toJson.compress = some doc ∧ doc.Describes e := by
  have hfaithful : ∀ value : Json, Json.IsVisible value.compress.toList ∧
      value.document.IsText value.compress.toList ∧
      Document.decode? value.compress = some value.document := by
    intro value
    rw [Json.decode?_compress, Json.compress, String.toList_ofList]
    exact ⟨value.isVisible_render, value.isText_render, rfl⟩
  refine ⟨fun d => ?_, fun a b ha hb => ⟨fun hsame => ?_, fun hsame => hsame ▸ rfl⟩, fun e => ?_⟩
  · obtain ⟨hvisible, htext, hdecode⟩ := hfaithful d.toJson
    exact ⟨hvisible, _, htext, hdecode, d.reports_document⟩
  · have hdecode := (hfaithful a.toJson).2.2
    rw [hsame, (hfaithful b.toJson).2.2] at hdecode
    exact a.reports_document.unique (Option.some.inj hdecode ▸ b.reports_document) ha hb
  · obtain ⟨hvisible, htext, hdecode⟩ := hfaithful e.toJson
    exact ⟨hvisible, _, htext, hdecode, e.describes_document⟩

/-- A failure in a text with a quotation mark, a backslash, a tab, a line break, another control
character and a letter outside of ASCII. -/
def quotedFailure : Diagnostic :=
  ⟨⟨.undefinedName, 18446744073709551615, "\x22\x5c"⟩, "(\t\n\x01é",
    some [⟨.parenOpen, "(", 0⟩, ⟨.parenClose, ")", 7⟩]⟩

/-- Its report is decoded to it, and is not that of the same failure without the tokens. -/
theorem quotedFailure_reported :
    (∃ doc : Document, Document.decode? quotedFailure.toJson.compress = some doc ∧
      doc.Reports quotedFailure) ∧
    quotedFailure.toJson.compress ≠
      (Diagnostic.mk quotedFailure.toFault quotedFailure.text none).toJson.compress := by
  constructor
  · obtain ⟨doc, -, hdecode, hreports⟩ := (reports_faithful.1 quotedFailure).2
    exact ⟨doc, hdecode, hreports⟩
  · intro hsame
    have heq := (reports_faithful.2.1 quotedFailure
      ⟨quotedFailure.toFault, quotedFailure.text, none⟩
      (by simp [Diagnostic.HasPlainParens, quotedFailure, Token.HasPlainParens])
      (by simp [Diagnostic.HasPlainParens])).mp hsame
    cases heq

end Formula
