import AstPromotion.Proofs.Language.Correctness
import AstPromotion.Proofs.Sketch.Grammar

/-! # Sketches and the arenas they are read into

Layout is all that a text has besides its sketch: reading gives back the sketch
that was written, planted as the tree that it is, and what was read can be
written with single spaces and read into the same arena again.
-/

namespace AstPromotion

namespace Sketch

/-- Planting makes the tree that the sketch is. -/
theorem ast_plant (file : String) (sketch : Sketch) :
    (sketch.plant file {}).2.IsTree (sketch.plant file {}).1 ∧
      (sketch.plant file {}).2.ast (sketch.plant file {}).1 = sketch.toTerm file := by
  obtain ⟨term, hlabel, herase, hplanted⟩ := sketch.exists_planted file {}
  have hbears := hplanted.bears term List.mem_cons_self
  rw [← hlabel, ← herase]
  exact ⟨hbears.isTree, hbears.ast_eq⟩

end Sketch

open Sketch

/-- Reading undoes writing, whatever the layout: a sketch that can be written is read back from every
rendering of it. Reading accepts nothing else: what was read is such a sketch, the text a rendering
of it, and with single spaces it is read into the same arena. -/
theorem read_rendered (file : String) :
    (∀ sketch source, sketch.Writable → sketch.Renders source →
      Sketch.parse source = .ok sketch ∧
        ∃ root arena, parseSource file source = .ok (root, arena) ∧ arena.IsTree root ∧
          arena.ast root = sketch.toTerm file) ∧
      ∀ source root arena, parseSource file source = .ok (root, arena) →
        ∃ sketch : Sketch, sketch.Writable ∧ sketch.Renders source ∧
          arena.IsTree root ∧ arena.ast root = sketch.toTerm file ∧
            parseSource file sketch.render = .ok (root, arena) := by
  constructor
  · intro sketch source hwritable hrenders
    have hparse := parse_eq_ok_iff.mpr ⟨hwritable, hrenders⟩
    refine ⟨hparse, (sketch.plant file {}).1, (sketch.plant file {}).2, ?_, sketch.ast_plant file⟩
    rw [parseSource, hparse]
  · intro source root arena hparse
    obtain ⟨sketch, hsketch, hplant⟩ := exists_of_parseSource hparse
    obtain ⟨hwritable, hrenders⟩ := parse_eq_ok_iff.mp hsketch
    obtain ⟨htree, hast⟩ := sketch.ast_plant file
    rw [hplant] at htree hast
    refine ⟨sketch, hwritable, hrenders, htree, hast, ?_⟩
    rw [parseSource, parse_eq_ok_iff.mpr ⟨hwritable, sketch.renders_render⟩]
    exact congrArg Except.ok hplant

/-- A program with a number in front of a word, and a parenthesis and a sign that stand for
themselves. -/
def commented : Sketch :=
  .group .program [.leaf (.number "1"), .leaf (.word "a"),
    .group (.provisional .expression)
      [.leaf (.mark (.punctuation .leftParen)), .leaf (.word "x"), .leaf (.string "#")]]

theorem writable_commented : commented.Writable := by
  have hnumber : IsNumeral "1".toList := .whole (by decide) (by simp)
  have hfirst : IsWord "a".toList := by decide
  have hsecond : IsWord "x".toList := by decide
  have htext : '"' ∉ "#".toList := by decide
  refine ⟨⟨_, _, rfl⟩, ?_⟩
  intro token htoken
  simp only [commented, tokens, tokensEach, List.cons_append, List.nil_append, List.append_nil,
    List.mem_cons, List.not_mem_nil, or_false] at htoken
  rcases htoken with rfl | rfl | rfl | rfl | rfl
  · exact hnumber
  · exact hfirst
  · exact trivial
  · exact hsecond
  · exact htext

/-- Only the name of the group and the number need something between them. -/
theorem commented_renders :
    commented.Renders "(Program#) a\n1a(Expression'('x\"#\")) # (done" := by
  have hcomment : Layout ('#' :: (") a".toList ++ '\n' :: [])) := .comment (by decide) .nil
  have hspace : Layout [' '] := .blank (by decide) .nil
  have htrailing : Trailing ([' '] ++ '#' :: " (done".toList) := .unended hspace (by decide)
  exact .next .nil (fun _ => by decide) <| .next .nil (fun _ => by decide) <|
    .next hcomment (fun hnil => nomatch hnil) <| .next .nil (fun _ => by decide) <|
    .next .nil (fun _ => by decide) <| .next .nil (fun _ => by decide) <|
    .next .nil (fun _ => by decide) <| .next .nil (fun _ => by decide) <|
    .next .nil (fun _ => by decide) <| .next .nil (fun _ => by decide) <|
    .next .nil (fun _ => by decide) <| .done htrailing

theorem read_rendered_commented :
    ∃ root arena,
      parseSource "main" "(Program#) a\n1a(Expression'('x\"#\")) # (done" = .ok (root, arena) ∧
        arena.ast root = commented.toTerm "main" ∧
          parseSource "main" "( Program 1 a ( Expression '(' x \"#\" ) )" = .ok (root, arena) := by
  obtain ⟨hread, hwritten⟩ := read_rendered "main"
  obtain ⟨hparse, root, arena, harena, -, hast⟩ :=
    hread commented _ writable_commented commented_renders
  obtain ⟨sketch, hwritable, hrenders, -, -, hagain⟩ := hwritten _ root arena harena
  -- The sketch of the text is the one that was written.
  obtain ⟨hsketch, -⟩ := hread sketch _ hwritable hrenders
  obtain rfl : commented = sketch := Except.ok.inj (hparse.symm.trans hsketch)
  have hspaced : commented.render = "( Program 1 a ( Expression '(' x \"#\" ) )" := by
    decide +kernel
  rw [hspaced] at hagain
  exact ⟨root, arena, harena, hast, hagain⟩

end AstPromotion
