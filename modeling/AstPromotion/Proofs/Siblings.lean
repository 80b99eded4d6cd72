import AstPromotion.Proofs.Parsed
import AstPromotion.Proofs.Termination

/-! # Items side by side

What a visit makes of an item of a program does not depend on the items beside
it. A phase over a program therefore does to each part of it what it does to a
program of that part alone, and goes on until the last part has settled.
-/

namespace AstPromotion

/-- What two runs come to when they are made at once: they share their passes. -/
def Stats.beside (first second : Stats) : Stats :=
  { passes := max first.passes second.passes, rewrites := first.rewrites + second.rewrites }

namespace Term

/-- A program over items. -/
def program (file : String) (items : List (Term Unit)) : Term Unit :=
  node () (.group (.program file true) items)

/-- What is left of items after a visit of each. -/
def pass (phase : Phase) (items : List (Term Unit)) : List (Term Unit) :=
  remaining (items.map (visit phase ()))

/-- The rewrites made in a visit of each item. -/
def passEvents (phase : Phase) (items : List (Term Unit)) : List Event :=
  items.flatMap fun item => (item.visit phase ()).events

variable {phase : Phase} {file : String} {items result : List (Term Unit)} {stats : Stats}

theorem pass_append (phase : Phase) (first second : List (Term Unit)) :
    pass phase (first ++ second) = pass phase first ++ pass phase second := by
  rw [pass, remaining, List.map_append, List.filter_append, List.map_append]
  rfl

theorem passEvents_append (phase : Phase) (first second : List (Term Unit)) :
    passEvents phase (first ++ second) = passEvents phase first ++ passEvents phase second :=
  List.flatMap_append

/-- A visit of a program is a visit of each of its items. -/
theorem visit_program (phase : Phase) (file : String) (items : List (Term Unit)) :
    (program file items).visit phase () =
      { term := program file (pass phase items), gone := false,
        events := passEvents phase items } := by
  have hform : (program file items).form = .group (.program file true) items := rfl
  rw [visit_of_container phase () rfl, rebuild_of_group hform, eventsBelow, Form.children_map,
    List.flatMap_map]
  rfl

/-- Items whose visits are idle are left as they are. -/
theorem pass_of_idle (hidle : passEvents phase items = []) : pass phase items = items := by
  have hevents : ((program "" items).visit phase ()).events = [] := by rw [visit_program, hidle]
  have hvisit := visit_of_settled (settled_of_events_eq_nil hevents) ()
  rw [visit_program] at hvisit
  exact congrArg (fun residue => residue.term.children) hvisit

theorem mem_pass {tree : Term Unit} :
    tree ∈ pass phase items ↔ ∃ item ∈ items, (item.visit phase ()).gone = false ∧
      (item.visit phase ()).term = tree := by
  rw [pass, mem_remaining]
  constructor
  · rintro ⟨residue, hresidue, hstays, rfl⟩
    obtain ⟨item, hitem, rfl⟩ := List.mem_map.mp hresidue
    exact ⟨item, hitem, hstays, rfl⟩
  · rintro ⟨item, hitem, hstays, rfl⟩
    exact ⟨_, List.mem_map_of_mem hitem, hstays, rfl⟩

theorem length_pass_le (phase : Phase) (items : List (Term Unit)) :
    (pass phase items).length ≤ items.length := by
  have hfilter := List.length_filter_le (fun residue => !residue.gone) (items.map (visit phase ()))
  rw [pass, remaining, List.length_map]
  rwa [List.length_map] at hfilter

/-- How items settle in a phase: what becomes of them, after how many passes and rewrites. -/
inductive Settles (phase : Phase) : (items result : List (Term Unit)) → Stats → Prop
  | idle {items : List (Term Unit)} (hidle : passEvents phase items = []) :
      Settles phase items items { passes := 1, rewrites := 0 }
  | busy {items result : List (Term Unit)} {rest : Stats} (hbusy : passEvents phase items ≠ [])
      (hrest : Settles phase (pass phase items) result rest) :
      Settles phase items result
        { passes := rest.passes + 1, rewrites := (passEvents phase items).length + rest.rewrites }

namespace Settles

theorem passes_pos (hsettles : Settles phase items result stats) : 0 < stats.passes := by
  cases hsettles with
  | idle => exact Nat.one_pos
  | busy => exact Nat.succ_pos _

/-- Items settle in one way only. -/
theorem unique {other : List (Term Unit)} {more : Stats}
    (hsettles : Settles phase items result stats) (hother : Settles phase items other more) :
    other = result ∧ more = stats := by
  induction hsettles generalizing other more with
  | idle hidle =>
      cases hother with
      | idle => exact ⟨rfl, rfl⟩
      | busy hbusy => exact absurd hidle hbusy
  | busy hbusy _ ih =>
      cases hother with
      | idle hidle => exact absurd hidle hbusy
      | busy _ hrest =>
          obtain ⟨rfl, rfl⟩ := ih hrest
          exact ⟨rfl, rfl⟩

/-- Items that have settled wait for those between them. -/
theorem between {before after : List (Term Unit)} (hbefore : passEvents phase before = [])
    (hsettles : Settles phase items result stats) (hafter : passEvents phase after = []) :
    Settles phase (before ++ items ++ after) (before ++ result ++ after) stats := by
  have hevents (items : List (Term Unit)) :
      passEvents phase (before ++ items ++ after) = passEvents phase items := by
    rw [passEvents_append, passEvents_append, hbefore, hafter, List.nil_append, List.append_nil]
  induction hsettles with
  | idle hidle => exact .idle ((hevents _).trans hidle)
  | @busy items result rest hbusy _ ih =>
      have hpass : pass phase (before ++ items ++ after) = before ++ pass phase items ++ after := by
        rw [pass_append, pass_append, pass_of_idle hbefore, pass_of_idle hafter]
      rw [← hevents] at hbusy ⊢
      exact .busy hbusy (hpass ▸ ih)

/-- Two parts settle beside each other as they do alone. -/
theorem append {first second result' : List (Term Unit)} {stats' : Stats}
    (hfirst : Settles phase first result stats) (hsecond : Settles phase second result' stats') :
    Settles phase (first ++ second) (result ++ result') (stats.beside stats') := by
  have hnone : passEvents phase [] = [] := rfl
  induction hfirst generalizing second result' stats' with
  | idle hidle =>
      have hstats : Stats.beside { passes := 1, rewrites := 0 } stats' = stats' := by
        rw [Stats.beside, Nat.max_eq_right hsecond.passes_pos, Nat.zero_add]
      have hsettles := hsecond.between hidle hnone
      rwa [List.append_nil, List.append_nil, ← hstats] at hsettles
  | @busy items result rest hbusy hrest ih =>
      cases hsecond with
      | idle hidle =>
          have hstats (stats : Stats) (hpos : 0 < stats.passes) :
              stats.beside { passes := 1, rewrites := 0 } = stats := by
            rw [Stats.beside, Nat.max_eq_left hpos, Nat.add_zero]
          rw [hstats _ (Nat.succ_pos _)]
          exact (busy hbusy hrest).between hnone hidle
      | @busy _ _ rest' hbusy' hrest' =>
          have hboth : passEvents phase (items ++ second) ≠ [] := by
            rw [passEvents_append]
            exact fun hnil => hbusy (List.append_eq_nil_iff.mp hnil).1
          have hsettles := ih hrest'
          rw [← pass_append] at hsettles
          have hstats : Stats.beside
              { passes := rest.passes + 1
                rewrites := (passEvents phase items).length + rest.rewrites }
              { passes := rest'.passes + 1
                rewrites := (passEvents phase second).length + rest'.rewrites } =
              { passes := (rest.beside rest').passes + 1
                rewrites :=
                  (passEvents phase (items ++ second)).length + (rest.beside rest').rewrites } := by
            rw [passEvents_append, List.length_append, Stats.beside, Stats.beside,
              Nat.add_max_add_right, Nat.add_add_add_comm]
          rw [hstats]
          exact .busy hboth hsettles

/-- Items may be removed, but no new ones come up. -/
theorem length_le (hsettles : Settles phase items result stats) :
    result.length ≤ items.length := by
  induction hsettles with
  | idle => exact Nat.le_refl _
  | busy _ _ ih => exact Nat.le_trans ih (length_pass_le _ _)

theorem shallow (hsettles : Settles .normalization items result stats)
    (hshallow : ∀ item ∈ items, item.Shallow) : ∀ plain ∈ result, plain.Shallow := by
  induction hsettles with
  | idle => exact hshallow
  | busy _ _ ih =>
      apply ih
      intro tree htree
      obtain ⟨item, hitem, -, rfl⟩ := mem_pass.mp htree
      exact Normalization.shallow_normalize () (hshallow item hitem)

/-- Of the visits that promotion makes to shallow items, the first one counts. -/
theorem eq_pass (hsettles : Settles .promotion items result stats)
    (hshallow : ∀ item ∈ items, item.Shallow) : result = pass .promotion items := by
  cases hsettles with
  | idle hidle => exact (pass_of_idle hidle).symm
  | busy hbusy hrest =>
      refine (unique (.idle ?_) hrest).1
      apply List.flatMap_eq_nil_iff.mpr
      intro tree htree
      obtain ⟨item, hitem, hstays, rfl⟩ := mem_pass.mp htree
      have hsettled : (item.visit .promotion ()).term.Settled .promotion :=
        Promotion.settled_promote (hshallow item hitem) hstays
      rw [visit_of_settled hsettled]
      rfl

end Settles

end Term

namespace Arena

open Term (Settles program)

variable {arena : Arena} {root : Id} {file : String} {term : Term Id} {phase : Phase}

/-- A run of a phase that settles does so as the items of the program do. -/
theorem BearsProgram.exists_settles (hprogram : arena.BearsProgram root file true term)
    {items : List (Term Unit)} (hterm : term.erase = program file items) {limit : Nat}
    (hsettled : (arena.settle phase root limit).settled = true) :
    ∃ (last : Term Id) (result : List (Term Unit)),
      (arena.settle phase root limit).arena.BearsProgram root file true last ∧
        last.erase = program file result ∧
          Settles phase items result (arena.settle phase root limit).stats := by
  induction limit generalizing arena term items with
  | zero => cases hsettled
  | succ limit ih =>
      obtain ⟨middle, hpassed, hmiddle⟩ := hprogram.exists_passed phase
      have himage := hpassed.image (fun _ => ()) () fun _ _ => rfl
      rw [← Term.erase, hterm, Term.visit_program] at himage
      obtain ⟨hvisited, -, hevents⟩ := Residue.mk.inj himage
      simp only [settle] at hsettled ⊢
      split
      next hidle =>
          rw [← hevents, List.isEmpty_iff] at hidle
          refine ⟨middle, items, hmiddle, ?_, .idle hidle⟩
          rw [Term.erase, ← hvisited, Term.pass_of_idle hidle]
      next hbusy =>
          rw [if_neg hbusy] at hsettled
          obtain ⟨last, result, hlast, hresult, hsettles⟩ := ih hmiddle hvisited.symm hsettled
          refine ⟨last, result, hlast, hresult, ?_⟩
          rw [← hevents, List.isEmpty_iff] at hbusy
          rw [Run.stats, List.length_append, ← hevents]
          exact .busy hbusy hsettles

end Arena

end AstPromotion
