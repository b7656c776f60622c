import Packrat.Grammar.Basic
import Packrat.Parser.Token
import Packrat.Parser.Literal
import Packrat.Parser.Choice
import Packrat.Parser.Repeat
import Packrat.Parser.Memo

/-!
# The parser of a grammar

A grammar is turned into a parser part by part. The references in it are left
to a function that gives the parser of a name.

- `Grammar.parser`: the parser of a grammar at an address.
-/

namespace Packrat.Grammar

variable {C τ σ : Type} [Input C τ σ] [Token τ] [ToValue τ] [ToValue σ]

/-- The parser of a grammar that stands at an address. What a continuation gives
is built anew at each run, and so is a fresh grammar: their memoised parts have
tables of their own. -/
def parser (call : Reference → Parser C Value) : Grammar → Address → Parser C Value
  | pure v, _ => .pure v
  | satisfy test, _ => .map ToValue.toValue (.satisfy (test ∘ Token.toChar))
  | skipIf test, _ => .replace .unit (.skipIf (test ∘ Token.toChar))
  | endOfInput, _ => .replace .unit .endOfInput
  | take n, _ => .map ToValue.toValue (.take n)
  | takeWhile test, _ => .map ToValue.toValue (.takeWhile (test ∘ Token.toChar))
  | takeWhile1 test, _ => .map ToValue.toValue (.takeWhile1 (test ∘ Token.toChar))
  | skipWhile test, _ => .replace .unit (.skipWhile (test ∘ Token.toChar))
  | literal s, _ => .map .text (.literal s)
  | literalAnyCase s, _ => .map ToValue.toValue (.literalAnyCase s)
  | map f g, a => .map f (g.parser call a)
  | convert name reason f g, a => .convert name reason f (g.parser call a)
  | both g h, a =>
    .map (fun pair => .pair pair.1 pair.2)
      (.both (g.parser call (a.turn .left)) (h.parser call (a.turn .right)))
  | seqRight g h, a => .seqRight (g.parser call (a.turn .left)) (h.parser call (a.turn .right))
  | seqLeft g h, a => .seqLeft (g.parser call (a.turn .left)) (h.parser call (a.turn .right))
  | apply g h, a =>
    .apply (.map Value.call (g.parser call (a.turn .left))) (h.parser call (a.turn .right))
  | bind g k, a => .bind (g.parser call a) fun v => .inFreshScope ((k v).parser call .fresh)
  | orElse g h, a => .orElse (g.parser call (a.turn .left)) (h.parser call (a.turn .right))
  | label name g, a => .label name (g.parser call a)
  | lexeme name g, a => .lexeme name (g.parser call a)
  | optional g, a => .map (fun v => (v.map Value.some).getD .none) (.optional (g.parser call a))
  | option default g, a => .option default (g.parser call a)
  | marked default marker body, a =>
    .marked default (marker.parser call (a.turn .left)) (body.parser call (a.turn .right))
  | notFollowedBy g, a => .replace .unit (.notFollowedBy (g.parser call a))
  | many g, a => .map .list (.many (g.parser call a))
  | many1 g, a => .map .list (.many1 (g.parser call a))
  | skipMany g, a => .replace .unit (.skipMany (g.parser call a))
  | skipMany1 g, a => .replace .unit (.skipMany1 (g.parser call a))
  | memo g, a => .memo a (g.parser call (a.turn .inside))
  | fresh g, _ => .inFreshScope (g.parser call .fresh)
  | .call r, _ => call r
  | tally name g, a => .tally name (g.parser call a)

end Packrat.Grammar
