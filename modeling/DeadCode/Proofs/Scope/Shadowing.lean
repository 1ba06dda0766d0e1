import DeadCode.Proofs.Scope.Lookup

/-! # Shadowing

A name is looked up along the chain of a scope, and the first binding that is met counts. So a new
binding is found from the scopes that see the one it lands on past all scopes in between, and from
all others the name stands for what it stood for before. -/

namespace DeadCode

theorem findSome?_of_override {α β : Type} [DecidableEq α] {f g : α → Option β} {x : α} {b : β}
    (h : ∀ y, g y = if y = x then some b else f y) (ys : List α) :
    ys.findSome? g =
      if x ∈ ys ∧ ∀ y ∈ ys.takeWhile (· ≠ x), (f y).isNone then some b else ys.findSome? f := by
  induction ys with
  | nil => simp
  | cons y rest ih =>
    rw [List.findSome?_cons, List.findSome?_cons, h]
    by_cases hy : y = x
    · simp [hy]
    · rw [if_neg hy]
      cases hf : f y with
      | some c => simp [hy, hf]
      | none =>
        have hne : x ≠ y := fun heq => hy heq.symm
        simp [ih, hy, hf, hne]

namespace ScopeTree

variable {tree tree' : ScopeTree} {i j target : ScopeId} {name : String} {binding : Binding}
  {hoist : Hoist}

/-- A scope sees what another binds to a name: the other one is on its chain, and no scope before
it binds the name. -/
def Sees (tree : ScopeTree) (i target : ScopeId) (name : String) : Prop :=
  target ∈ tree.chain i ∧
    ∀ inner ∈ (tree.chain i).takeWhile (· ≠ target), (tree.local? inner name).isNone

instance : Decidable (tree.Sees i target name) :=
  inferInstanceAs (Decidable (target ∈ tree.chain i ∧
    ∀ inner ∈ (tree.chain i).takeWhile (· ≠ target), (tree.local? inner name).isNone))

/-- **What a name stands for after a declaration**: the new binding where it is seen, and what it
stood for before everywhere else. -/
theorem lookup?_of_declare (h : tree.declare i binding hoist = .ok (target, tree')) (j : ScopeId)
    (name : String) :
    tree'.lookup? j name =
      if name = binding.name ∧ tree.Sees j target name then some binding
      else tree.lookup? j name := by
  have hlocal := local?_of_declare h
  rw [lookup?, lookup?, chain_of_frame_eq (frame_of_declare h)]
  by_cases hname : name = binding.name
  · rw [findSome?_of_override (x := target) (b := binding) (f := (tree.local? · name))
      fun k => by simp [hlocal, hname]]
    simp [Sees, hname]
  · simp [hlocal, hname]

/-- **The shadowing law.** After a declaration has landed on a scope, its name stands for the new
binding from every scope that sees this one. From all other scopes, and for all other names, nothing
has changed. A lexical declaration lands on the scope it stands in, a hoisted one on the nearest
scope around it that takes such declarations. -/
theorem declare_shadows (h : tree.declare i binding hoist = .ok (target, tree')) :
    (∀ j name, name = binding.name → tree.Sees j target name →
      tree'.lookup? j name = some binding) ∧
    (∀ j name, ¬ (name = binding.name ∧ tree.Sees j target name) →
      tree'.lookup? j name = tree.lookup? j name) ∧
    (hoist = .lexical → target = i) ∧ (hoist = .hoisted → tree.hoistTarget i = .ok target) := by
  refine ⟨fun j name hname hsees => ?_, fun j name hnot => ?_, fun hlexical => ?_, fun hhoisted => ?_⟩
  · rw [lookup?_of_declare h, if_pos ⟨hname, hsees⟩]
  · rw [lookup?_of_declare h, if_neg hnot]
  · have hland := landing_of_declare h
    rw [hlexical] at hland
    cases hland
    rfl
  · have hland := landing_of_declare h
    rwa [hhoisted] at hland

/-- The scopes of `{ let x; { } } function f() { { let x; } }`, numbered in this order: two blocks,
one in the other, a function and a block in it. The `x` of the first block and that of the second
are declared by the statements 1 and 2. -/
def blocksAndFunction : ScopeTree :=
  { scopes := #[
      { parent := none, kind := .global },
      { parent := some 0, kind := .block, bindings := [("x", .declared "x" 1)] },
      { parent := some 1, kind := .block },
      { parent := some 0, kind := .function },
      { parent := some 3, kind := .block, bindings := [("x", .declared "x" 2)] }] }

/-- A `var x` in the block of the function lands on the function. It is seen from there, but not
from the block, whose own `x` comes first, nor from the blocks beside the function. -/
theorem declare_shadows_blocksAndFunction : ∃ tree,
    blocksAndFunction.declare 4 (.declared "x" 9) .hoisted = .ok (3, tree) ∧
    tree.lookup? 3 "x" = some (.declared "x" 9) ∧
    tree.lookup? 4 "x" = some (.declared "x" 2) ∧
    tree.lookup? 2 "x" = some (.declared "x" 1) ∧
    tree.lookup? 0 "x" = none := by
  have hsees : blocksAndFunction.Sees 3 3 "x" ∧ ¬ blocksAndFunction.Sees 4 3 "x" ∧
      ¬ blocksAndFunction.Sees 2 3 "x" ∧ ¬ blocksAndFunction.Sees 0 3 "x" := by decide +kernel
  have hbefore : blocksAndFunction.lookup? 4 "x" = some (.declared "x" 2) ∧
      blocksAndFunction.lookup? 2 "x" = some (.declared "x" 1) ∧
      blocksAndFunction.lookup? 0 "x" = none := by
    refine ⟨?_, ?_, ?_⟩ <;> cbv
  cases hdeclare : blocksAndFunction.declare 4 (.declared "x" 9) .hoisted with
  | error e =>
    have hok : (blocksAndFunction.declare 4 (.declared "x" 9) .hoisted).toOption.isSome := by
      decide +kernel
    rw [hdeclare] at hok
    cases hok
  | ok r =>
    obtain ⟨target, tree⟩ := r
    obtain ⟨hseen, hkept, -, hland⟩ := declare_shadows hdeclare
    have htarget : blocksAndFunction.hoistTarget 4 = .ok 3 := by decide +kernel
    obtain rfl : target = 3 := Except.ok.inj ((hland rfl).symm.trans htarget)
    refine ⟨tree, rfl, hseen 3 "x" rfl hsees.1, ?_, ?_, ?_⟩
    · rw [hkept 4 "x" fun h => hsees.2.1 h.2, hbefore.1]
    · rw [hkept 2 "x" fun h => hsees.2.2.1 h.2, hbefore.2.1]
    · rw [hkept 0 "x" fun h => hsees.2.2.2 h.2, hbefore.2.2]

end ScopeTree

end DeadCode
