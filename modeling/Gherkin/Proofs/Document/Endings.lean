import Gherkin.Proofs.Document.ErrorOrder
import Gherkin.Proofs.Document.Transfer
import Gherkin.Proofs.Token.Endings

/-!
# Line ends do not matter

A source with `CR LF` line ends holds the document that it holds with line feeds alone, or is refused for
the same faults, and nothing but byte offsets tells the two apart.
-/

namespace Gherkin

namespace Location

variable {source cs : List Char} {loc : Location}

theorem At.textFrom_inCrlf (h : loc.At source cs) :
    Reader.textFrom (Text.withCrlf source) loc.inCrlf.offset = Reader.textFrom source loc.offset := by
  rw [h.inCrlf.textFrom, h.textFrom, Text.trim_takeWhile_withCrlf]

theorem At.docString_inCrlf {t : Token} (h : t.location.At source cs) :
    Reader.docString (Text.withCrlf source) (t.inCrlf source) = Reader.docString source t := by
  have hdrop : Text.dropBytes? (t.inCrlf source).location.offset (Text.withCrlf source) =
      some (Text.withCrlf cs) := h.inCrlf.dropBytes?
  refine Reader.docString_congr rfl rfl ?_
  rw [hdrop, h.dropBytes?]
  exact Text.isSome_dropWord?_withCrlf (by decide) (by decide) cs

end Location

namespace View

def crlf (source : List Char) : View :=
  ⟨source, Text.withCrlf source, Location.inCrlf, Text.crlfOffset source⟩

theorem shows_crlf {d : Dialect} {source : String} {t : Token} (h : t ∈ tokens d source) :
    (crlf source.toList).Shows t := by
  rcases Token.exists_span h with ⟨span, rest, hat, hstop⟩
  constructor
  · intro _
    show Reader.textFrom (Text.withCrlf source.toList) (Text.crlfOffset source.toList t.stop) =
      Reader.textFrom source.toList t.stop
    rw [hstop, hat.past.crlfOffset, hat.past.textFrom_inCrlf]
  · intro _
    exact hat.textFrom_inCrlf
  · intro _
    exact hat.docString_inCrlf

end View

variable {source : String}

/-- In every dialect the tokens are read as the same document. -/
theorem Parsed.ofTokens_withCrlf (d : Dialect) (h : '\r' ∉ source.toList) :
    Parsed.ofTokens (String.ofList (Text.withCrlf source.toList))
        (tokens d (String.ofList (Text.withCrlf source.toList))) =
      match Parsed.ofTokens source (tokens d source) with
      | .ok p => .ok (p.relocate Location.inCrlf)
      | .error errors => .error (errors.map (ParseError.relocate Location.inCrlf)) := by
  have htokens : tokens d (String.ofList (Text.withCrlf source.toList)) =
      (tokens d source).map (View.crlf source.toList).token := tokens_withCrlf d h
  have htarget : (String.ofList (Text.withCrlf source.toList)).toList =
      (View.crlf source.toList).target := String.toList_ofList
  rw [htokens]
  exact ofTokens_map rfl htarget (tokens_ne_nil d source) fun t ht => View.shows_crlf ht

theorem ParseError.ofLexical_withCrlf (d : Dialect) (h : '\r' ∉ source.toList) :
    (lexicalErrors d (String.ofList (Text.withCrlf source.toList))).map ofLexical =
      ((lexicalErrors d source).map ofLexical).map (relocate Location.inCrlf) := by
  rw [lexicalErrors_withCrlf d h, List.map_map, List.map_map]
  rfl

/-- With a carriage return before every line feed a source gives the same document or the same failure,
and every location is as many bytes further on as there are lines before it. -/
theorem parse_withCrlf (h : '\r' ∉ source.toList) :
    parse (String.ofList (Text.withCrlf source.toList)) =
      match parse source with
      | .ok p => .ok (p.relocate Location.inCrlf)
      | .error errors => .error (errors.map (ParseError.relocate Location.inCrlf)) := by
  unfold parse
  dsimp only
  rw [Parsed.ofTokens_withCrlf .english h, ParseError.ofLexical_withCrlf .english h]
  cases Parsed.ofTokens source (tokens .english source) with
  | ok p =>
    dsimp only [Parsed.relocate]
    rw [← List.map_append, ParseError.inOrder_map Location.le_inCrlf]
  | error errors =>
    dsimp only
    rw [← List.map_append, ParseError.inOrder_map Location.le_inCrlf]

set_option maxRecDepth 4000 in
/-- A step without text, a doc string, and a string without an end behind a backslash. -/
theorem parse_withCrlf_of_doc_string :
    '\r' ∉ "Feature: f\nScenario: s\nGiven\n\"\"\"\nx\n\"\"\"\nThen \"a\\\n".toList ∧
      parse (String.ofList (Text.withCrlf
          "Feature: f\nScenario: s\nGiven\n\"\"\"\nx\n\"\"\"\nThen \"a\\\n".toList)) =
        .ok ⟨⟨"f", none, [], none,
          [.scenario ⟨"s", none, [],
            [⟨.given, "", none, some ⟨"x", none, .doubleQuotes⟩, ⟨3, 1, 25⟩⟩,
              ⟨.thus, "\"a\\", none, none, ⟨7, 1, 45⟩⟩], ⟨2, 1, 12⟩⟩], ⟨1, 1, 0⟩⟩,
          [⟨.order (.stepWithoutText .given), ⟨3, 1, 25⟩⟩,
            ⟨.lexical .unterminatedString, ⟨7, 6, 50⟩⟩]⟩ := by
  have hcr : '\r' ∉ "Feature: f\nScenario: s\nGiven\n\"\"\"\nx\n\"\"\"\nThen \"a\\\n".toList := by
    decide
  refine ⟨hcr, ?_⟩
  rw [parse_withCrlf hcr, parse_eq]
  cbv

end Gherkin
