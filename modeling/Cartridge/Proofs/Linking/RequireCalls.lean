import Cartridge.Linking.Require
import Cartridge.Proofs.Lua.InStep
import Cartridge.Proofs.Lua.Nodes
import Cartridge.Proofs.Lua.Resaving

/-!
# The calls that are looked at

The calls of `require` are collected from the calls that stand inside no other call.  A call of `require`
in the arguments of another call, or in front of them, is passed over.
-/

namespace Cartridge

open List

namespace Lua

def Tree.inside : Tree → List Tree
  | .node _ fs _ => Tree.nodesOf fs
  | _ => []

namespace Grammar

section Phrases

variable {toks : Array Token}

theorem Derived.start_of_call {s : Category} {t : Tree} {i j : Nat} (h : Derived toks s t i j)
    (ht : t.isA .functionCall = true) : ∃ m, t.start? = some m ∧ m < toks.size := by
  revert ht
  refine Derived.induct (P := fun _ t _ _ => t.isA .functionCall = true →
    ∃ m, t.start? = some m ∧ m < toks.size) ?_ h
  intro s t i j items rule row ht
  cases rule with
  | callOf _ _ m first args =>
    obtain ⟨_, _, row⟩ := row.of_part
    cases row with
    | place row =>
      obtain ⟨_, hargs, _⟩ := row.of_part
      obtain ⟨ps, u, k, htakes, -, -⟩ := hargs.1.opens rfl
      have hle := htakes.blank.le
      have hlt := (Array.getElem?_eq_some_iff.mp htakes.get).1
      exact ⟨m, rfl, by omega⟩
  | single | tableArgument | allArguments | chainBase | given =>
    obtain ⟨_, hpart, _⟩ := row.of_part
    exact hpart.2 ht
  | bracketedBase =>
    obtain ⟨_, _, _, row⟩ := row.of_word
    obtain ⟨_, hpart, _⟩ := row.of_part
    exact hpart.2 ht
  | _ => cases ht

end Phrases

end Grammar

theorem Program.exists_derived {v : Int} {pieces : List Bytes} {p : Program}
    (hp : Program.ofLines v pieces = .ok p) :
    ∃ stop, Grammar.Derived p.tokens .block p.root 0 stop := by
  rw [Program.ofLines_eq] at hp
  split at hp
  · cases hp
  · next sc hsc =>
    cases ht : Tree.ofTokens sc.tokens with
    | error e =>
      rw [ht] at hp
      cases hp
    | ok t =>
      rw [ht] at hp
      cases hp
      exact Tree.derived_of_ofTokens ht

/-! ### Outermost calls -/

namespace Tree

open Grammar

mutual

theorem mem_nodes_trans {m n : Tree} : ∀ {t : Tree}, m ∈ t.nodes → n ∈ m.nodes → n ∈ t.nodes
  | .node k fs o, hm, hn => by
    rcases mem_cons.mp hm with rfl | hm
    · exact hn
    · exact mem_cons_of_mem _ (mem_nodesOf_trans hm hn)
  | .list _, hm, hn => mem_nodesOf_trans (by rwa [nodes] at hm) hn

theorem mem_nodesOf_trans {m n : Tree} : ∀ {ts : List Tree}, m ∈ nodesOf ts → n ∈ m.nodes → n ∈ nodesOf ts
  | _ :: _, hm, hn => by
    rw [nodesOf, mem_append] at hm ⊢
    exact hm.imp (mem_nodes_trans · hn) (mem_nodesOf_trans · hn)

end

theorem calls_of_isA {t : Tree} (h : t.isA .functionCall = true) : t.calls = [t] := by
  cases t with
  | node k fs o =>
    obtain rfl : k = .functionCall := by simpa [isA] using h
    rfl
  | _ => cases h

theorem calls_node {k : NodeKind} (hk : k ≠ .functionCall) (fs : List Tree) (o : Origin) :
    (Tree.node k fs o).calls = callsOf fs := by
  cases k <;> first | rfl | exact absurd rfl hk

mutual

theorem isA_of_mem_calls {c : Tree} : ∀ {t : Tree}, c ∈ t.calls → c.isA .functionCall = true
  | .node k fs o, h => by
    by_cases hk : k = .functionCall
    · subst hk
      cases mem_singleton.mp h
      rfl
    · rw [calls_node hk] at h
      exact isA_of_mem_callsOf h
  | .list _, h => isA_of_mem_callsOf (by rwa [calls] at h)

theorem isA_of_mem_callsOf {c : Tree} : ∀ {ts : List Tree}, c ∈ callsOf ts → c.isA .functionCall = true
  | _ :: _, h => by
    rw [callsOf, mem_append] at h
    exact h.elim isA_of_mem_calls isA_of_mem_callsOf

end

mutual

theorem filter_nodes_perm (q : Tree → Bool) (hq : ∀ t, q t = true → t.isA .functionCall = true) :
    ∀ t : Tree, (t.nodes.filter q).Perm ((t.calls ++ t.calls.flatMap inside).filter q)
  | .node k fs o => by
    by_cases hk : k = .functionCall
    · subst hk
      rw [calls_of_isA rfl]
      simp [nodes, inside]
    · have hself : q (.node k fs o) = false := by
        rw [← Bool.not_eq_true]
        intro h
        exact hk (by simpa [isA] using hq _ h)
      rw [calls_node hk, nodes, filter_cons_of_neg (by simp [hself])]
      exact filter_nodesOf_perm q hq fs
  | .list ts => filter_nodesOf_perm q hq ts
  | .token _ | .label _ | .truth _ | .absent => .refl _

theorem filter_nodesOf_perm (q : Tree → Bool) (hq : ∀ t, q t = true → t.isA .functionCall = true) :
    ∀ ts : List Tree,
      ((nodesOf ts).filter q).Perm ((callsOf ts ++ (callsOf ts).flatMap inside).filter q)
  | [] => .refl _
  | t :: ts => by
    have h := (filter_nodes_perm q hq t).append (filter_nodesOf_perm q hq ts)
    rw [nodesOf, callsOf, filter_append]
    refine h.trans ?_
    simp only [filter_append, flatMap_append, append_assoc]
    exact (perm_append_left_iff _).mpr (by
      rw [← append_assoc, ← append_assoc]
      exact perm_append_comm.append_right _)

end

mutual

theorem calls_sublist : ∀ t : Tree, t.calls.Sublist t.nodes
  | .node k fs o => by
    by_cases hk : k = .functionCall
    · subst hk
      exact (nil_sublist _).cons_cons _
    · rw [calls_node hk]
      exact (callsOf_sublist fs).cons _
  | .list ts => callsOf_sublist ts
  | .token _ | .label _ | .truth _ | .absent => .slnil

theorem callsOf_sublist : ∀ ts : List Tree, (callsOf ts).Sublist (nodesOf ts)
  | [] => .slnil
  | t :: ts => (calls_sublist t).append (callsOf_sublist ts)

end

end Tree
end Lua

namespace Linking

open Lua

def literalOf : Tree → Option Bytes
  | .node .functionCall [_, .node .functionArgs [.node .expList [.list [argument]] _] _] _ =>
    nameOf argument
  | _ => none

theorem isA_of_isRequire {t : Tree} (h : isRequire t = true) : t.isA .functionCall = true := by
  unfold isRequire at h
  split at h
  · rfl
  · cases h

theorem ofCall_of_literal {toks : Array Token} {call : Tree} {name : Bytes}
    (hname : literalOf call = some name) {tok : Token} (htok : startToken toks call = .ok tok) :
    ofCall toks call = .ok ⟨name, false, tok⟩ := by
  unfold literalOf at hname
  split at hname
  · next first argument o₁ o₂ o =>
    have hargs : argumentsOf (.node .functionCall
        [first, .node .functionArgs [.node .expList [.list [argument]] o₁] o₂] o) = .ok [argument] := rfl
    rw [ofCall, hargs]
    simp [bind, Except.bind, htok, hname, pure, Except.pure]
  · cases hname

section Collecting

variable {toks : Array Token}

theorem requiresFrom_of_literals : ∀ {calls : List Tree},
    (∀ c ∈ calls, isRequire c = true → (literalOf c).isSome = true ∧ ∃ tok, startToken toks c = .ok tok) →
    (requiresFrom toks calls).2 = none ∧
      (requiresFrom toks calls).1.map (fun r => (some r.name, r.gameLoop)) =
        (calls.filter isRequire).map (fun c => (literalOf c, false)) := by
  intro calls
  induction calls with
  | nil => exact fun _ => ⟨rfl, rfl⟩
  | cons c rest ih =>
    intro h
    obtain ⟨hnone, hmap⟩ := ih fun d hd => h d (mem_cons_of_mem _ hd)
    by_cases hc : isRequire c = true
    · obtain ⟨hsome, tok, htok⟩ := h c (mem_cons_self ..) hc
      obtain ⟨name, hname⟩ := Option.isSome_iff_exists.mp hsome
      have hfound : requireOf? toks c = .ok (some ⟨name, false, tok⟩) := by
        rw [requireOf?, if_pos hc, ofCall_of_literal hname htok]
        rfl
      rw [requiresFrom, hfound, filter_cons_of_pos hc]
      exact ⟨hnone, by rw [map_cons, map_cons, hmap, hname]⟩
    · have hpassed : requireOf? toks c = .ok none := by rw [requireOf?, if_neg hc]
      rw [requiresFrom, hpassed, filter_cons_of_neg hc]
      exact ⟨hnone, hmap⟩

end Collecting

theorem mem_calls_or_inside {t call : Tree} (h : call ∈ t.nodes) (hcall : call.isA .functionCall = true) :
    call ∈ t.calls ∨ ∃ outer ∈ t.calls, call ∈ outer.inside := by
  have hmem := (Tree.filter_nodes_perm (Tree.isA .functionCall) (fun _ => id) t).mem_iff.mp
    (mem_filter.mpr ⟨h, hcall⟩)
  simpa using (mem_filter.mp hmem).1

theorem length_filter_calls_iff (t : Tree) :
    (t.calls.filter isRequire).length = (t.nodes.filter isRequire).length ↔
      ∀ call ∈ t.nodes, call.isA .functionCall = true → ∀ n ∈ call.inside, isRequire n = false := by
  have hcount := (Tree.filter_nodes_perm isRequire (fun _ => isA_of_isRequire) t).length_eq
  rw [filter_append, length_append] at hcount
  constructor
  · intro hlength call hcall hkind n hn
    have hnone : (t.calls.flatMap Tree.inside).filter isRequire = [] :=
      eq_nil_of_length_eq_zero (by omega)
    have hinside : n ∈ t.calls.flatMap Tree.inside := by
      rcases mem_calls_or_inside hcall hkind with hcall | ⟨outer, houter, hcall⟩
      · exact mem_flatMap.mpr ⟨call, hcall, hn⟩
      · refine mem_flatMap.mpr ⟨outer, houter, ?_⟩
        cases outer with
        | node k fs o =>
          cases call with
          | node k' fs' o' => exact Tree.mem_nodesOf_trans hcall (mem_cons_of_mem _ hn)
          | _ => cases hn
        | _ => cases hcall
    simpa using filter_eq_nil_iff.mp hnone n hinside
  · intro h
    have hnone : (t.calls.flatMap Tree.inside).filter isRequire = [] := by
      rw [filter_eq_nil_iff]
      intro n hn
      obtain ⟨call, hcall, hn⟩ := mem_flatMap.mp hn
      have hnode := (Tree.calls_sublist t).subset hcall
      simp [h call hnode (Tree.isA_of_mem_calls hcall) n hn]
    rw [hcount, hnone, length_nil, Nat.add_zero]

/-- **The calls that are looked at.**  If all calls of `require` have a string as their only argument, an
item is found for each that stands inside no other call, in order, and no call is refused.  So all calls
of `require` are found if and only if none of them stands inside a call. -/
theorem requires_of_literals {v : Int} {pieces : List Bytes} {p : Program}
    (hp : Program.ofLines v pieces = .ok p)
    (hform : ∀ call ∈ p.root.nodes, isRequire call = true → (literalOf call).isSome = true) :
    (requires p).2 = none ∧
      (requires p).1.map (fun r => (some r.name, r.gameLoop)) =
        (p.root.calls.filter isRequire).map (fun call => (literalOf call, false)) ∧
      ((requires p).1.map (fun r => some r.name) = (p.root.nodes.filter isRequire).map literalOf ↔
        ∀ call ∈ p.root.nodes, call.isA .functionCall = true →
          ∀ inner ∈ call.inside, isRequire inner = false) := by
  obtain ⟨stop, hroot⟩ := Program.exists_derived hp
  have hcalls : ∀ c ∈ p.root.calls, isRequire c = true →
      (literalOf c).isSome = true ∧ ∃ tok, startToken p.tokens c = .ok tok := by
    intro c hc hrequire
    have hnode := (Tree.calls_sublist p.root).subset hc
    obtain ⟨s, i, j, hderived⟩ := hroot.of_mem_nodes hnode
    obtain ⟨m, hm, hlt⟩ := hderived.start_of_call (isA_of_isRequire hrequire)
    refine ⟨hform c hnode hrequire, p.tokens[m], ?_⟩
    rw [startToken, hm]
    simp [hlt]
  obtain ⟨hnone, hmap⟩ := requiresFrom_of_literals hcalls
  refine ⟨hnone, hmap, ?_⟩
  have hnames : (requires p).1.map (fun r => some r.name) =
      (p.root.calls.filter isRequire).map literalOf := by
    have hfst := congrArg (List.map Prod.fst) hmap
    rw [List.map_map, List.map_map] at hfst
    exact hfst
  rw [hnames, ← length_filter_calls_iff]
  constructor
  · intro h
    simpa using congrArg List.length h
  · intro h
    rw [((Tree.calls_sublist p.root).filter isRequire).eq_of_length h]

def requireSample : List Bytes :=
  [Bytes.ofText "x=\x7brequire(\"a\")\x7d\nif require(\"b\") then y=f(1) end\n",
    Bytes.ofText "function g() return require(\"c\") end\n"]

theorem requires_of_literals_sample : ∃ p, Program.ofLines 8 requireSample = .ok p ∧
    (requires p).2 = none ∧
      (requires p).1.map (fun r => some r.name) = (p.root.nodes.filter isRequire).map literalOf ∧
      (p.root.nodes.filter isRequire).map literalOf =
        [some (Bytes.ofText "a"), some (Bytes.ofText "b"), some (Bytes.ofText "c")] := by
  have hsample : (Program.ofLines 8 requireSample).toOption.map (fun p =>
      (p.root.nodes.all (fun call => !isRequire call || (literalOf call).isSome),
        p.root.nodes.all (fun call => !call.isA .functionCall || call.inside.all (!isRequire ·)),
        (p.root.nodes.filter isRequire).map literalOf)) =
      some (true, true,
        [some (Bytes.ofText "a"), some (Bytes.ofText "b"), some (Bytes.ofText "c")]) := by
    decide +kernel
  cases hp : Program.ofLines 8 requireSample with
  | error e =>
    rw [hp] at hsample
    cases hsample
  | ok p =>
    rw [hp] at hsample
    simp only [Except.toOption, Option.map_some, Option.some.injEq, Prod.mk.injEq, List.all_eq_true,
      Bool.or_eq_true, Bool.not_eq_true'] at hsample
    obtain ⟨hform, halone, hall⟩ := hsample
    have hfound := requires_of_literals hp fun call hcall hrequire =>
      (hform call hcall).resolve_left (by simp [hrequire])
    refine ⟨p, rfl, hfound.1, hfound.2.2.mpr fun call hcall hkind => ?_, hall⟩
    exact (halone call hcall).resolve_left (by simp [hkind])

/-- A call of `require` in the arguments of a call is not found. -/
theorem requires_passed_over :
    (Program.ofLines 8 [Bytes.ofText "print(require(\"a\"))\n"]).toOption.map (fun p =>
      (requires p, (p.root.nodes.filter isRequire).map literalOf)) =
    some (([], none), [some (Bytes.ofText "a")]) := by
  decide +kernel

end Linking
end Cartridge
