import Cartridge.Proofs.Lua.InStep
import Cartridge.Proofs.Lua.Moves

/-!
# The names and literals of a script

The steps of a script look at the tokens they pass, except for those that write names and literals: these
are written from the tree, whatever token the pen is at.  The names and literals that a script writes are
part of the content of the tree, in the same order.
-/

namespace Cartridge.Lua

open Pen List

variable {t : Token}

def colons : Bytes := Tree.word "::"

@[reducible] def Step.isSeeing : Step → Bool
  | .name .. | .take _ | .put _ | .stop _ => false
  | _ => true

@[reducible] def Step.isStop : Step → Bool
  | .stop _ | .name _ .noToken | .name _ .noName => true
  | .name _ (.token t) => t.kind != .name
  | _ => false

/-- The steps write these names and literals; if they fail, anything can be said of them. -/
inductive Recites : List Step → List Bytes → Prop
  | nil : Recites [] []
  | seeing {s : Step} {steps : List Step} {ws : List Bytes} (hs : s.isSeeing = true)
      (h : Recites steps ws) : Recites (s :: steps) ws
  | name {w : Owner} {s : Spelling} {text : Bytes} {steps : List Step} {ws : List Bytes}
      (hs : Spells s text) (h : Recites steps ws) : Recites (.name w s :: steps) (text :: ws)
  | take {text : Bytes} {steps : List Step} {ws : List Bytes} (h : Recites steps ws) :
      Recites (.take text :: steps) (text :: ws)
  | label {w : Owner} {name : Bytes} {steps : List Step} {ws : List Bytes} (h : Recites steps ws) :
      Recites (.gap w :: .put colons :: .name w (.label name) :: .put colons :: steps)
        ((colons ++ name ++ colons) :: ws)
  | stop {s : Step} (hs : s.isStop = true) (steps : List Step) (ws : List Bytes) : Recites (s :: steps) ws
  | putStop {text : Bytes} {s : Step} (hs : s.isStop = true) (steps : List Step) (ws : List Bytes) :
      Recites (.put text :: s :: steps) ws

def Draws (steps : List Step) (bs : List Bytes) : Prop := ∃ ws, Recites steps ws ∧ ws.Sublist bs

theorem Recites.append {more : List Step} {ws vs : List Bytes} (h : Recites steps ws) (h' : Recites more vs) :
    Recites (steps ++ more) (ws ++ vs) := by
  induction h with
  | nil => exact h'
  | seeing hs h ih => exact .seeing hs ih
  | name hs h ih => exact .name hs ih
  | take h ih => exact .take ih
  | label h ih => exact .label ih
  | stop hs steps ws => exact .stop hs _ _
  | putStop hs steps ws => exact .putStop hs _ _

namespace Draws

variable {s : Step} {steps more : List Step} {bs cs : List Bytes}

theorem nil (bs : List Bytes) : Draws [] bs := ⟨[], .nil, nil_sublist bs⟩

theorem append (h : Draws steps bs) (h' : Draws more cs) : Draws (steps ++ more) (bs ++ cs) := by
  obtain ⟨ws, hws, hsub⟩ := h
  obtain ⟨vs, hvs, hsub'⟩ := h'
  exact ⟨ws ++ vs, hws.append hvs, hsub.append hsub'⟩

theorem followed (h : Draws steps bs) (h' : Draws more []) : Draws (steps ++ more) bs := by
  rw [← append_nil bs]
  exact h.append h'

theorem skip (bs : List Bytes) (h : Draws steps cs) : Draws steps (bs ++ cs) := by
  obtain ⟨ws, hws, hsub⟩ := h
  exact ⟨ws, hws, hsub.trans (sublist_append_right bs cs)⟩

theorem seeing (hs : s.isSeeing = true) (h : Draws steps bs) : Draws (s :: steps) bs := by
  obtain ⟨ws, hws, hsub⟩ := h
  exact ⟨ws, .seeing hs hws, hsub⟩

theorem stop (hs : s.isStop = true) (steps : List Step) (bs : List Bytes) : Draws (s :: steps) bs :=
  ⟨[], .stop hs steps [], nil_sublist bs⟩

theorem take {text : Bytes} (h : Draws steps bs) : Draws (.take text :: steps) (text :: bs) := by
  obtain ⟨ws, hws, hsub⟩ := h
  exact ⟨text :: ws, .take hws, hsub.cons_cons text⟩

end Draws

def Mention.code : Mention → Bytes
  | .word t => t.code
  | .jump name => name
  | .label name => colons ++ name ++ colons

namespace Tree

def codes (t : Tree) : List Bytes := t.content.map Mention.code

@[simp] theorem codes_list (ts : List Tree) : (list ts).codes = ts.flatMap codes := by
  rw [codes, content_list, map_flatMap]
  rfl

@[simp] theorem codes_node {k : NodeKind} (hjump : k ≠ .statGoto) (hlabel : k ≠ .statLabel)
    (fs : List Tree) (o : Origin) : (node k fs o).codes = fs.flatMap codes := by
  rw [codes, content_node hjump hlabel, map_flatMap]
  rfl

theorem draws_name (w : Owner) (t : Tree) (h : Draws steps bs) :
    Draws (.name w t.spelling :: steps) (t.codes ++ bs) := by
  cases t with
  | token t =>
    by_cases hkind : t.kind = .name
    · obtain ⟨ws, hws, hsub⟩ := h
      have hcodes : (token t).codes = [t.code] := by simp [codes, mentions, hkind, Mention.code]
      rw [hcodes]
      exact ⟨t.code :: ws, .name ⟨hkind, rfl⟩ hws, hsub.cons_cons _⟩
    · exact .stop (s := .name w (.token t)) (bne_iff_ne.mpr hkind) _ _
  | _ => exact .stop rfl _ _

theorem draws_lastName (w : Owner) (t : Tree) (h : Draws steps []) :
    Draws (.name w t.spelling :: steps) t.codes := by
  rw [← append_nil t.codes]
  exact draws_name w t h

theorem draws_operator (w : Owner) (t : Tree) (h : Draws steps bs) :
    Draws (operator w t :: steps) (t.codes ++ bs) := by
  cases t with
  | token t => exact .seeing rfl (h.skip _)
  | _ => exact .stop rfl _ _

theorem draws_namesScript (w : Owner) (sign : Bytes) (t : Tree) : Draws (namesScript w sign t) t.codes := by
  cases t with
  | list ts =>
    rw [codes_list]
    cases ts with
    | nil => exact .stop rfl _ _
    | cons t ts =>
      refine draws_name w t ?_
      induction ts with
      | nil => exact .nil _
      | cons u ts ih => exact .seeing rfl (draws_name w u ih)
  | _ => exact .stop rfl _ _

theorem draws_nameToken (w : Owner) (t : Token) (h : Draws steps []) :
    Draws (.name w (.token t) :: steps) (token t).codes :=
  draws_lastName w (.token t) h

theorem draws_take (ht : t.kind = .number ∨ t.kind = .string) (h : Draws steps []) :
    Draws (.take t.code :: steps) (token t).codes := by
  have hcodes : (token t).codes = [t.code] := by
    rcases ht with ht | ht <;> simp [codes, mentions, ht, Mention.code]
  rw [hcodes]
  exact .take h

theorem draws_gaps (w : Owner) (n : Nat) (bs : List Bytes) : Draws (replicate n (.gap w)) bs := by
  induction n with
  | zero => exact .nil bs
  | succ n ih => exact .seeing rfl ih

theorem draws_jump (w : Owner) (target : Tree) (o : Origin) :
    Draws [.name w target.labelSpelling] (node .statGoto [target] o).codes := by
  cases target with
  | label name => exact ⟨[name], .name rfl .nil, by rw [codes, content]; exact Sublist.refl _⟩
  | _ => exact .stop rfl _ _

theorem draws_label (w : Owner) (target : Tree) (o : Origin) :
    Draws [.gap w, .put (word "::"), .name w target.labelSpelling, .put (word "::")]
      (node .statLabel [target] o).codes := by
  cases target with
  | label name =>
    exact ⟨[colons ++ name ++ colons], .label .nil, by rw [codes, content]; exact Sublist.refl _⟩
  | _ => exact .seeing rfl ⟨[], .putStop rfl _ _, nil_sublist _⟩

theorem draws_script (t : Tree) : Draws (t.script false) t.codes := by
  revert t
  apply And.left
  apply script.mutual_induct false (fun t => Draws (script false t) t.codes)
    (fun ts => Draws (allScript false ts) (ts.flatMap codes))
    (fun w t => Draws (fieldsScript false w t) t.codes)
    (fun w ts => Draws (moreFieldsScript false w ts) (ts.flatMap codes))
    (fun w t => Draws (separatedScript false w t) t.codes)
    (fun w ts => Draws (moreScript false w ts) (ts.flatMap codes))
    (fun w short t => Draws (branchesScript false w short t) t.codes)
    (fun w short first ts => Draws (branchList false w short first ts) (ts.flatMap codes))
    (fun w t => Draws (blockScript false w t) t.codes)
    (fun w ts => Draws (statsScript false w ts) (ts.flatMap codes))
  all_goals intros
  all_goals
    simp only [script, allScript, fieldsScript, moreFieldsScript, separatedScript, moreScript,
      branchesScript, branchList, blockScript, statsScript, cons_append, append_assoc, nil_append,
      codes_list, flatMap_cons, flatMap_nil, append_nil, codes_node, ne_eq, reduceCtorEq,
      not_false_eq_true, Bool.false_eq_true, if_false]
  all_goals
    repeat' first
      | with_reducible exact .nil _
      | with_reducible assumption
      | with_reducible exact draws_jump _ _ _
      | with_reducible exact draws_label _ _ _
      | with_reducible refine .seeing rfl ?_
      | with_reducible exact .stop rfl _ _
      | with_reducible refine draws_operator _ _ ?_
      | with_reducible refine draws_name _ _ ?_
      | with_reducible refine draws_lastName _ _ ?_
      | with_reducible refine draws_nameToken _ _ ?_
      | with_reducible refine draws_take (by simp_all) ?_
      | with_reducible exact draws_gaps _ _ _
      | with_reducible exact draws_namesScript _ _ _
      | with_reducible refine .append (by assumption) ?_
      | with_reducible refine .followed (by assumption) ?_
      | with_reducible refine .append (draws_namesScript _ _ _) ?_
      | rw [nil_append]
      | rw [cons_append]
      | rw [append_assoc]
      | split
      | with_reducible refine .skip _ ?_

end Tree

/-! ### The tokens of a phrase -/

namespace Grammar

section Codes

variable {toks : Array Token} {i j : Nat}

theorem code_of_stands (hreg : Regular toks) {mention : Mention} {n : Nat}
    (ht : toks[n]? = some t) (h : Stands mention t) : mention.code = t.code := by
  cases h with
  | word => rfl
  | jump hkind =>
    rw [Token.code_of_ne_string (by rw [hkind]; decide)]
    rfl
  | label hkind =>
    rw [Token.code_of_ne_string (by rw [hkind]; decide), hreg.label ht hkind]
    rfl

theorem Derived.codes_eq (hreg : Regular toks) {s : Category} {t : Tree} (h : Derived toks s t i j) :
    t.codes = (contentBetween toks i j).map Token.code := by
  have hall : ∀ u ∈ contentBetween toks i j, ∃ n : Nat, toks[n]? = some u := by
    intro u hu
    obtain ⟨n, -, -, hn⟩ := exists_of_mem_between (mem_of_mem_filter hu)
    exact ⟨n, hn⟩
  have hstands := h.standsFor
  unfold StandsFor at hstands
  rw [Tree.codes]
  generalize contentBetween toks i j = ts at hall hstands
  generalize t.content = ms at hstands
  induction hstands with
  | nil => rfl
  | @cons m u ms ts hfirst hrest ih =>
    obtain ⟨n, hn⟩ := hall u mem_cons_self
    rw [map_cons, map_cons, code_of_stands hreg hn hfirst,
      ih fun v hv => hall v (mem_cons_of_mem u hv)]

end Codes

end Grammar
end Cartridge.Lua
