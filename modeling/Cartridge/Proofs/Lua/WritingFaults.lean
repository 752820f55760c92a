import Cartridge.Lua.Program

/-!
# How writing a tree fails

A tree that was not made by the grammar may have the wrong children, and tokens that are not those of
the tree may end too early or be other words.  These are the failures of writing; none of them is a
bound that runs out.
-/

namespace Cartridge

variable {e : Failure} {s : Step} {steps steps' : List Step}

def Failure.isOfWriting : Failure → Bool
  | .outOfRange | .wrongType | .missingPart | .unmetCondition | .unfitValue => true
  | _ => false

namespace Lua

/-! ### Scripts -/

def Step.Sound : Step → Prop
  | .stop e => e.isOfWriting = true
  | _ => True

def SoundSteps (steps : List Step) : Prop := ∀ s ∈ steps, s.Sound

@[simp] theorem Step.sound_stop (e : Failure) : (Step.stop e).Sound ↔ e.isOfWriting = true := Iff.rfl

@[simp] theorem Step.sound_of_ne (h : ∀ e, s ≠ .stop e) : s.Sound := by
  cases s with
  | stop e => exact absurd rfl (h e)
  | _ => exact trivial

@[simp] theorem soundSteps_nil : SoundSteps [] := fun _ h => absurd h List.not_mem_nil

@[simp] theorem soundSteps_cons : SoundSteps (s :: steps) ↔ s.Sound ∧ SoundSteps steps :=
  List.forall_mem_cons

@[simp] theorem soundSteps_append : SoundSteps (steps ++ steps') ↔ SoundSteps steps ∧ SoundSteps steps' :=
  List.forall_mem_append

@[simp] theorem soundSteps_ite {c : Prop} [Decidable c] :
    SoundSteps (if c then steps else steps') ↔ (c → SoundSteps steps) ∧ (¬c → SoundSteps steps') := by
  split <;> simp_all

@[simp] theorem soundSteps_replicate (n : Nat) (hs : s.Sound) : SoundSteps (List.replicate n s) := by
  intro s' hs'
  rw [List.eq_of_mem_replicate hs']
  exact hs

namespace Tree

@[simp] theorem sound_operator (w : Owner) (t : Tree) : (operator w t).Sound := by
  cases t with
  | token t => exact trivial
  | _ => rfl

@[simp] theorem soundSteps_namesScript (w : Owner) (sign : Bytes) (t : Tree) :
    SoundSteps (namesScript w sign t) := by
  cases t with
  | list ts =>
    cases ts with
    | nil => simp [namesScript, nameSteps, Failure.isOfWriting]
    | cons t ts =>
      rw [namesScript, nameSteps, soundSteps_cons]
      refine ⟨trivial, fun s hs => ?_⟩
      obtain ⟨u, -, hs⟩ := List.mem_flatMap.mp hs
      simp only [List.mem_cons, List.not_mem_nil, or_false] at hs
      rcases hs with rfl | rfl <;> trivial
  | _ => simp [namesScript, Failure.isOfWriting]

theorem soundSteps_script (plain : Bool) (t : Tree) : SoundSteps (script plain t) := by
  revert t
  apply And.left
  apply script.mutual_induct plain (fun t => SoundSteps (script plain t))
    (fun ts => SoundSteps (allScript plain ts))
    (fun w t => SoundSteps (fieldsScript plain w t))
    (fun w ts => SoundSteps (moreFieldsScript plain w ts))
    (fun w t => SoundSteps (separatedScript plain w t))
    (fun w ts => SoundSteps (moreScript plain w ts))
    (fun w short t => SoundSteps (branchesScript plain w short t))
    (fun w short first ts => SoundSteps (branchList plain w short first ts))
    (fun w t => SoundSteps (blockScript plain w t))
    (fun w ts => SoundSteps (statsScript plain w ts))
  all_goals intros
  -- the steps that a node adds are no stops, or stop with a failure of writing
  all_goals
    simp_all +zetaDelta [script, allScript, fieldsScript, moreFieldsScript, separatedScript, moreScript,
      branchesScript, branchList, blockScript, statsScript, Failure.isOfWriting]
  -- what is left are values, arguments and separators, whose steps depend on what they are
  all_goals split <;> simp_all

end Tree

/-! ### Pens -/

namespace Pen

def FailsSoundly {α : Type} (w : Write α) : Prop :=
  ∀ (p q : Pen) (e : Failure), w p = .error e q → e.isOfWriting = true

namespace FailsSoundly

theorem pure {α : Type} (a : α) : FailsSoundly (Pure.pure a) := nofun

theorem throw {α : Type} (he : e.isOfWriting = true) : FailsSoundly (MonadExcept.throw e : Write α) := by
  intro p q e' h
  cases h
  exact he

theorem bind {α β : Type} {w : Write α} {f : α → Write β} (hw : FailsSoundly w)
    (hf : ∀ a, FailsSoundly (f a)) : FailsSoundly (w >>= f) := by
  intro p q e h
  change EStateM.bind w f p = .error e q at h
  rw [EStateM.bind] at h
  cases hp : w p with
  | ok a p' =>
    rw [hp] at h
    exact hf a p' q e h
  | error e' p' =>
    rw [hp] at h
    cases h
    exact hw p _ _ hp

theorem ite {α : Type} {c : Prop} [Decidable c] {w w' : Write α} (hw : FailsSoundly w)
    (hw' : FailsSoundly w') : FailsSoundly (if c then w else w') := by
  split
  · exact hw
  · exact hw'

theorem get : FailsSoundly (MonadState.get : Write Pen) := nofun

theorem set (p : Pen) : FailsSoundly (MonadStateOf.set p : Write Unit) := nofun

theorem update (f : Pen → Pen) : FailsSoundly (modify f : Write Unit) := nofun

end FailsSoundly

section Tokens

variable (m : Manner) (toks : Array Token)

theorem next_failsSoundly : FailsSoundly (next toks) := by
  refine .bind .get fun p => ?_
  split
  · exact .pure _
  · exact .throw rfl

theorem within_failsSoundly (owner : Owner) : FailsSoundly (within toks owner) := by
  refine .bind .get fun p => ?_
  cases owner with
  | program | upTo stop => exact .pure _
  | unplaced | foreign => exact .throw rfl

theorem takeGap_failsSoundly (owner : Owner) (count : Nat) : FailsSoundly (takeGap toks owner count) := by
  induction count with
  | zero => exact .pure _
  | succ count ih =>
    refine .bind (within_failsSoundly toks owner) fun inside => .ite ?_ (.pure _)
    refine .bind (next_failsSoundly toks) fun t => .ite ?_ (.pure _)
    exact .bind (.update _) fun _ => .bind ih fun _ => .pure _

theorem gap_failsSoundly (owner : Owner) : FailsSoundly (gap m toks owner) := by
  have htake := takeGap_failsSoundly toks owner (toks.size + 1)
  unfold gap
  split
  · exact .ite (.pure _) (.bind htake fun _ => .pure _)
  · exact .bind .get fun _ => .bind htake fun _ => .bind .get fun _ => .ite (.pure _) (.pure _)
  · refine .bind .get fun _ => .bind htake fun _ => .bind .get fun _ => ?_
    split
    · exact .throw rfl
    · exact .pure _

theorem textFor_failsSoundly (owner : Owner) (word : Bytes) : FailsSoundly (textFor m toks owner word) := by
  refine .ite (.pure _) (.bind (gap_failsSoundly m toks owner) fun _ => ?_)
  refine .bind (next_failsSoundly toks) fun _ => .ite ?_ (.throw rfl)
  exact .bind (.update _) fun _ => .pure _

theorem spelled_failsSoundly (s : Spelling) : FailsSoundly (spelled s) := by
  cases s with
  | token t | label b => exact .pure _
  | noToken | noName => exact .throw rfl

theorem checkName_failsSoundly (s : Spelling) : FailsSoundly (checkName s) := by
  cases s with
  | token t => exact .ite (.pure _) (.throw rfl)
  | label b | noName => exact .pure _
  | noToken => exact .throw rfl

theorem nameFor_failsSoundly (owner : Owner) (s : Spelling) : FailsSoundly (nameFor m toks owner s) := by
  have hgap := gap_failsSoundly m toks owner
  have hcheck := checkName_failsSoundly s
  have hspelled := spelled_failsSoundly s
  unfold nameFor
  split
  · refine .bind hgap fun _ => .bind hcheck fun _ => .bind (.update _) fun _ => .bind hspelled fun _ => ?_
    exact .bind .get fun _ => .bind (.update _) fun _ => .pure _
  · refine .ite (.bind hspelled fun _ => .pure _) ?_
    exact .bind hgap fun _ => .bind hcheck fun _ => .bind (.update _) fun _ => .bind hspelled fun _ => .pure _

theorem semicolonsFor_failsSoundly (owner : Owner) (mark : Bytes) (count : Nat) :
    FailsSoundly (semicolonsFor m toks owner mark count) := by
  induction count with
  | zero => exact .pure _
  | succ count ih =>
    refine .bind (gap_failsSoundly m toks owner) fun _ => .bind (next_failsSoundly toks) fun _ => ?_
    exact .ite (.bind (.update _) fun _ => .bind ih fun _ => .pure _) (.pure _)

theorem carryOut_failsSoundly (hs : s.Sound) : FailsSoundly (carryOut m toks s) := by
  have hput : ∀ text, FailsSoundly (put text) := fun _ => .update _
  have hnext := next_failsSoundly toks
  have htext : ∀ owner word, FailsSoundly (do put (← textFor m toks owner word)) := fun owner word =>
    .bind (textFor_failsSoundly m toks owner word) hput
  cases s with
  | gap owner => exact .bind (gap_failsSoundly m toks owner) hput
  | text owner word => exact htext owner word
  | name owner spelling => exact .bind (nameFor_failsSoundly m toks owner spelling) hput
  | semicolons owner =>
    rw [carryOut]
    split
    · exact .bind (semicolonsFor_failsSoundly m toks owner _ _) hput
    · exact .ite (hput _) (.bind (semicolonsFor_failsSoundly m toks owner _ _) hput)
  | put text => exact hput text
  | take text => exact .bind (hput text) fun _ => .ite (.pure _) (.update _)
  | check t => exact .bind hnext fun _ => .ite (.pure _) (.throw rfl)
  | openIf =>
    refine .bind hnext fun _ => .ite ?_ (.update _)
    exact .bind (hput _) fun _ => .bind (.update _) fun _ => .bind (.update _) fun _ => .update _
  | closeIf owner =>
    refine .bind .get fun p => ?_
    split
    · exact .bind (.set _) fun _ => .bind (.update _) fun _ => htext owner _
    · exact .set _
    · exact .pure _
  | separator owner => exact .bind hnext fun t => htext owner t.code
  | lastSeparator owner => exact .bind hnext fun t => .ite (htext owner t.code) (.pure _)
  | indent | dedent => exact .update _
  | stop e => exact .throw hs

theorem carryOutAll_failsSoundly (h : SoundSteps steps) : FailsSoundly (carryOutAll m toks steps) := by
  induction steps with
  | nil => exact .pure _
  | cons s steps ih =>
    rw [soundSteps_cons] at h
    exact .bind (carryOut_failsSoundly m toks h.1) fun _ => ih h.2

end Tokens
end Pen

theorem Tree.isOfWriting_of_write {m : Manner} {toks : Array Token} {root : Tree}
    (h : (root.write m toks).failure = some e) : e.isOfWriting = true := by
  have hscript : Pen.FailsSoundly (Pen.writeScript m toks (root.script m.plain)) :=
    .bind (Pen.carryOutAll_failsSoundly m toks (soundSteps_script m.plain root)) fun _ =>
      Pen.gap_failsSoundly m toks .program
  rw [Tree.write] at h
  split at h
  · cases h
  · next hrun =>
    cases h
    exact hscript _ _ _ hrun

end Lua
end Cartridge
