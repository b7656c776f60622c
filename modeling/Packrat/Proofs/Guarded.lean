import Mathlib.Data.Finset.Card
import Mathlib.Logic.Relation
import Packrat.Proofs.Equations

/-!
# Guarded references

A reference is guarded where something has been read before it is followed, whatever
has been read. The other ones are exposed: they are followed at the cursor where the
grammar starts. A program is guarded if no name comes back to itself along exposed
references only, so that a run cannot come back to a name without reading on.

* `Program.Advances`: the grammars that read on wherever they succeed;
* `Grammar.Exposes`, `Grammar.Mentions`: the references that a grammar follows at its
  start, and all that are in it;
* `Program.Guarded`: every recursion goes through a guarded reference, with
  `Program.guarded_of_recursive`: if every reference that is recursive is guarded;
* `Program.rank`, `Program.Guarded.rank_lt`: exposed references lead down.
-/

namespace Packrat

open Input

/-! ## References in a grammar -/

namespace Grammar

/-- A grammar has a reference in it that is not guarded: no part that advances has to
succeed before it is followed. -/
def Exposes (advances : Grammar → Prop) (x : Reference) : Grammar → Prop
  | .call y => y = x
  | .both g h | .seqRight g h | .seqLeft g h | .apply g h | .marked _ g h =>
    g.Exposes advances x ∨ ¬advances g ∧ h.Exposes advances x
  | .bind g k => g.Exposes advances x ∨ ¬advances g ∧ ∃ v, (k v).Exposes advances x
  | .orElse g h => g.Exposes advances x ∨ h.Exposes advances x
  | .map _ g | .convert _ _ _ g | .label _ g | .lexeme _ g | .optional g | .option _ g
  | .notFollowedBy g | .many g | .many1 g | .skipMany g | .skipMany1 g | .memo g | .fresh g
  | .tally _ g => g.Exposes advances x
  | .pure _ | .satisfy _ | .skipIf _ | .endOfInput | .take _ | .takeWhile _ | .takeWhile1 _
  | .skipWhile _ | .literal _ | .literalAnyCase _ => False

/-- A grammar has a reference in it. -/
def Mentions (x : Reference) (g : Grammar) : Prop :=
  g.Exposes (fun _ => False) x

/-- The fewer grammars advance, the more references are exposed. -/
theorem Exposes.mono {p q : Grammar → Prop} {x : Reference} (hLe : ∀ g, q g → p g) {g : Grammar}
    (h : g.Exposes p x) : g.Exposes q x := by
  induction g with
  | call y => exact h
  | both g k ihg ihk | seqRight g k ihg ihk | seqLeft g k ihg ihk | apply g k ihg ihk
  | marked _ g k ihg ihk => exact h.imp ihg fun hRight => ⟨mt (hLe g) hRight.1, ihk hRight.2⟩
  | bind g k ihg ihk =>
    exact h.imp ihg fun ⟨hNot, v, hNext⟩ => ⟨mt (hLe g) hNot, v, ihk v hNext⟩
  | orElse g k ihg ihk => exact h.imp ihg ihk
  | map _ g ih | convert _ _ _ g ih | label _ g ih | lexeme _ g ih | optional g ih | option _ g ih
  | notFollowedBy g ih | many g ih | many1 g ih | skipMany g ih | skipMany1 g ih | memo g ih
  | fresh g ih | tally _ g ih => exact ih h
  | pure | satisfy | skipIf | endOfInput | take | takeWhile | takeWhile1 | skipWhile | literal
  | literalAnyCase => exact h

theorem Exposes.mentions {p : Grammar → Prop} {x : Reference} {g : Grammar}
    (h : g.Exposes p x) : g.Mentions x :=
  h.mono fun _ => False.elim

end Grammar

/-! ## Programs -/

namespace Program

open Relation

section

variable (C : Type) {τ σ : Type} [Input C τ σ] [Token τ] [ToValue τ] [ToValue σ]

/-- A grammar reads on wherever it succeeds. -/
def Advances (P : Program) (g : Grammar) : Prop :=
  ∀ ⦃c : C⦄ ⦃v d⦄, P.Yields g c (.ok (v, d)) → position c < position d

/-- The grammar of a name has a reference in it. -/
def Refers (P : Program) (x y : Reference) : Prop :=
  ∃ g, P.find? x = some g ∧ g.Mentions y

/-- The grammar of a name has a reference in it that is not guarded. -/
def Exposes (P : Program) (x y : Reference) : Prop :=
  ∃ g, P.find? x = some g ∧ g.Exposes (P.Advances C) y

/-- All names that are referred to have grammars, and every recursion goes through a
guarded reference. -/
structure Guarded (P : Program) : Prop where
  defined : ∀ {x y}, P.Refers x y → (P.find? y).isSome
  acyclic : ∀ x, ¬TransGen (P.Exposes C) x x

/-- The number of names to which exposed references lead. -/
noncomputable def rank (P : Program) (x : Reference) : Nat := by
  classical
  exact (P.names.toFinset.filter (ReflTransGen (P.Exposes C) x)).card

end

variable {C τ σ : Type} [Input C τ σ] [Token τ] [ToValue τ] [ToValue σ] {P : Program}
  {x y : Reference}

theorem Exposes.refers (h : P.Exposes C x y) : P.Refers x y := by
  obtain ⟨g, hName, hExposes⟩ := h
  exact ⟨g, hName, hExposes.mentions⟩

/-- A program is guarded if its recursive references are, so if all are, or if no
reference is recursive. -/
theorem guarded_of_recursive (hDefined : ∀ {x y}, P.Refers x y → (P.find? y).isSome)
    (hGuarded : ∀ {x y}, P.Exposes C x y → ¬ReflTransGen P.Refers y x) : P.Guarded C where
  defined := hDefined
  acyclic x hCycle := by
    obtain ⟨y, hExposes, hBack⟩ := TransGen.head'_iff.mp hCycle
    exact hGuarded hExposes (ReflTransGen.mono (fun _ _ => Exposes.refers) y x hBack)

theorem mem_names_of_find? {g : Grammar} (h : P.find? x = some g) : x ∈ P.names := by
  unfold names
  rw [List.mem_append, List.mem_map, List.mem_map]
  cases x with
  | rule name => exact .inl ⟨_, mem_of_lookup h, rfl⟩
  | shared name => exact .inr ⟨_, mem_of_lookup h, rfl⟩

/-- Exposed references lead down: what can be reached from the second name can be reached
from the first one, which cannot be reached from the second one. -/
theorem Guarded.rank_lt (h : P.Guarded C) (hExposes : P.Exposes C x y) :
    P.rank C y < P.rank C x := by
  classical
  obtain ⟨g, hName, -⟩ := id hExposes
  refine Finset.card_lt_card ((Finset.ssubset_iff_of_subset ?_).mpr ⟨x, ?_, ?_⟩)
  · exact Finset.monotone_filter_right _ fun z _ hReach => .head hExposes hReach
  · exact Finset.mem_filter.mpr ⟨List.mem_toFinset.mpr (mem_names_of_find? hName), .refl⟩
  · intro hMem
    exact h.acyclic x (.head' hExposes (Finset.mem_filter.mp hMem).2)

end Program

end Packrat
