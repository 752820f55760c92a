import Cartridge.Command.Session
import Cartridge.Proofs.Cart.LoadedSizes

/-!
# Actions on files

An action runs in a session and may fail; what it did before it failed stays done.  So what an action leaves
as it is has to be said for both cases, and is put together of the parts of the action.  Loading a cart
leaves the whole session as it is, and gives what the disk alone decides.
-/

namespace Cartridge

/-! ### Files that have been written -/

namespace Disk

variable {c : Content} {d : Disk} {file : String} {here : List (List Char)}

theorem file?_put (p : List (List Char)) (c : Content) (d : Disk) :
    ({ d with files := put p c d.files } : Disk).file? p = some c := by
  obtain ⟨files, folders⟩ := d
  rw [file?]
  induction files with
  | nil => simp [put]
  | cons f rest ih =>
    rw [put]
    split
    · simp
    · next hf =>
      rw [List.find?_cons_of_neg (by simpa using hf)]
      exact ih

theorem mem_put {p : List (List Char)} {files : List (List (List Char) × Content)}
    {f : List (List Char) × Content} (hf : f ∈ files) : ∃ g ∈ put p c files, g.1 = f.1 := by
  induction files with
  | nil => cases hf
  | cons e rest ih =>
    rw [put]
    split
    · next he =>
      rcases List.mem_cons.mp hf with rfl | hf
      · exact ⟨_, List.mem_cons_self, he.symm⟩
      · exact ⟨f, List.mem_cons_of_mem _ hf, rfl⟩
    · rcases List.mem_cons.mp hf with rfl | hf
      · exact ⟨f, List.mem_cons_self, rfl⟩
      · obtain ⟨g, hg, hname⟩ := ih hf
        exact ⟨g, List.mem_cons_of_mem _ hg, hname⟩

theorem isDirectory_put (h : d.isDirectory here = true) (p : List (List Char)) (c : Content) :
    ({ d with files := put p c d.files } : Disk).isDirectory here = true := by
  rw [isDirectory, Bool.or_eq_true, Bool.or_eq_true] at h ⊢
  rcases h with (h | h) | h
  · exact .inl (.inl h)
  · exact .inl (.inr h)
  · obtain ⟨f, hf, hinside⟩ := List.any_eq_true.mp h
    obtain ⟨g, hg, hname⟩ := mem_put (p := p) (c := c) hf
    exact .inr (List.any_eq_true.mpr ⟨g, hg, by rw [hname]; exact hinside⟩)

theorem walk_put {goal : List (List Char)} {path : List (List Char)}
    (h : d.walk here path = .ok goal) (p : List (List Char)) (c : Content) :
    ({ d with files := put p c d.files } : Disk).walk here path = .ok goal := by
  induction path generalizing here with
  | nil => exact h
  | cons step path ih =>
    rw [walk] at h ⊢
    split at h
    · next hhere =>
      rw [if_pos (isDirectory_put hhere p c)]
      split at h
      · next hstay => rw [if_pos hstay, ih h]
      · next hmove =>
        rw [if_neg hmove]
        split at h
        · next hup =>
          rw [if_pos hup]
          split at h
          · cases h
          · next hroot => rw [if_neg hroot, ih h]
        · next hdown => rw [if_neg hdown, ih h]
    · split at h <;> cases h

theorem read_of_write {d' : Disk} {path : List Char} (h : d.write path c = .ok d') : d'.read path = .ok c := by
  obtain ⟨p, hp, hwrite⟩ := exists_of_bind_eq_ok h
  split at hwrite
  · cases hwrite
  · cases hwrite
    have hresolve : ({ d with files := put p c d.files } : Disk).resolve path = .ok p := by
      rw [resolve.eq_def] at hp ⊢
      split at hp
      · cases hp
      · exact walk_put hp p c
      · exact walk_put hp p c
    simp only [read, hresolve, bind, Except.bind, file?_put]
    rfl

end Disk

namespace Command

open Lua

/-! ### Actions that leave something as it is -/

section Actions

variable {α β γ : Type} {a : Action α} {f : α → Action β} {s s' : Session}

theorem run_bind_eq_ok {b : β} :
    (a >>= f).run s = .ok b s' ↔ ∃ x t, a.run s = .ok x t ∧ (f x).run t = .ok b s' := by
  rw [EStateM.run_bind]
  cases a.run s with
  | ok x t =>
    constructor
    · exact fun h => ⟨x, t, rfl, h⟩
    · rintro ⟨_, _, heq, h⟩
      cases heq
      exact h
  | error e t => simp

theorem run_bind_eq_error {e : Failure} :
    (a >>= f).run s = .error e s' ↔
      a.run s = .error e s' ∨ ∃ x t, a.run s = .ok x t ∧ (f x).run t = .error e s' := by
  rw [EStateM.run_bind]
  cases a.run s with
  | ok x t =>
    constructor
    · exact fun h => .inr ⟨x, t, rfl, h⟩
    · rintro (heq | ⟨_, _, heq, h⟩)
      · cases heq
      · cases heq
        exact h
  | error e t => simp

theorem run_lift_eq_ok {x : Except Failure α} {b : α} :
    (lift x).run s = .ok b s' ↔ x = .ok b ∧ s' = s := by
  cases x with
  | ok y =>
    change EStateM.Result.ok y s = _ ↔ _
    simp [eq_comm]
  | error e =>
    change EStateM.Result.error e s = _ ↔ _
    simp

def Leaves (view : Session → γ) (a : Action α) : Prop :=
  ∀ s, (∀ x s', a.run s = .ok x s' → view s' = view s) ∧
    ∀ e s', a.run s = .error e s' → view s' = view s

variable {view : Session → γ}

theorem leaves_pure (x : α) : Leaves view (pure x : Action α) := by
  refine fun s => ⟨fun y s' h => ?_, fun e s' h => ?_⟩
  · cases h
    rfl
  · cases h

theorem leaves_throw (e : Failure) : Leaves view (throw e : Action α) := by
  refine fun s => ⟨fun y s' h => ?_, fun e s' h => ?_⟩
  · cases h
  · cases h
    rfl

theorem leaves_get : Leaves view (get : Action Session) := by
  refine fun s => ⟨fun y s' h => ?_, fun e s' h => ?_⟩
  · cases h
    rfl
  · cases h

theorem leaves_lift (x : Except Failure α) : Leaves view (lift x) := by
  cases x with
  | ok y => exact leaves_pure y
  | error e => exact leaves_throw e

theorem leaves_modify {g : Session → Session} (h : ∀ s, view (g s) = view s) :
    Leaves view (modify g : Action Unit) := by
  refine fun s => ⟨fun y s' hrun => ?_, fun e s' hrun => ?_⟩
  · cases hrun
    exact h s
  · cases hrun

theorem Leaves.bind (ha : Leaves view a) (hf : ∀ x, Leaves view (f x)) : Leaves view (a >>= f) := by
  refine fun s => ⟨fun b s' h => ?_, fun e s' h => ?_⟩
  · obtain ⟨x, t, hx, hb⟩ := run_bind_eq_ok.mp h
    exact ((hf x t).1 b s' hb).trans ((ha s).1 x t hx)
  · rcases run_bind_eq_error.mp h with he | ⟨x, t, hx, he⟩
    · exact (ha s).2 e s' he
    · exact ((hf x t).2 e s' he).trans ((ha s).1 x t hx)

theorem Leaves.ite {c : Prop} [Decidable c] {a b : Action α} (ha : Leaves view a)
    (hb : Leaves view b) : Leaves view (if c then a else b) := by
  split
  · exact ha
  · exact hb

theorem Leaves.forM {a : α → Action Unit} (h : ∀ x, Leaves view (a x)) (xs : List α) :
    Leaves view (xs.forM a) := by
  induction xs with
  | nil => exact leaves_pure ()
  | cons x xs ih => exact (h x).bind fun _ => ih

end Actions

/-! ### Loading carts -/

theorem leaves_readFile (file : String) : Leaves id (readFile file) :=
  leaves_get.bind fun _ => leaves_lift _

def cartIn (d : Disk) (file : String) : Except Failure Cart := do
  demand (isCartName file)
  let c ← d.read file.toList
  if endsWith file textEnding then Cart.ofTextFile c.data
  else match c with
    | .picture image => Cart.ofImage image
    | .bytes _ => .error .badPicture

theorem run_loadCart (file : String) (s : Session) :
    (loadCart file).run s =
      if s.stopped then .error .interrupted s else (lift (cartIn s.disk file)).run s := by
  cases hstopped : s.stopped with
  | true => simp [loadCart, hstopped]
  | false =>
    cases hname : isCartName file with
    | false =>
      simp [loadCart, cartIn, demand, hstopped, hname]
      rfl
    | true =>
      cases htext : endsWith file textEnding with
      | true =>
        cases hread : s.disk.read file.toList <;>
          simp [loadCart, cartIn, demand, hstopped, hname, htext, readFile, hread] <;> rfl
      | false =>
        cases hread : s.disk.read file.toList with
        | error e =>
          simp [loadCart, cartIn, demand, hstopped, hname, htext, readPicture, readFile, hread]
          rfl
        | ok c =>
          cases c <;>
            simp [loadCart, cartIn, demand, hstopped, hname, htext, readPicture, readFile, hread] <;>
              rfl

theorem run_loadCart_eq_ok {s s' : Session} {c : Cart} :
    (loadCart file).run s = .ok c s' ↔ s.stopped = false ∧ cartIn s.disk file = .ok c ∧ s' = s := by
  rw [run_loadCart]
  cases s.stopped with
  | true => simp
  | false => simp [run_lift_eq_ok]

theorem leaves_loadCart (file : String) : Leaves id (loadCart file) := by
  intro s
  rw [run_loadCart]
  cases s.stopped with
  | true => exact leaves_throw (α := Cart) Failure.interrupted s
  | false => exact leaves_lift _ s

theorem size_sounds_of_cartIn {c : Cart} (h : cartIn d file = .ok c) : c.sounds.size ≤ 4352 := by
  obtain ⟨_, -, h⟩ := exists_of_bind_eq_ok h
  obtain ⟨content, -, h⟩ := exists_of_bind_eq_ok h
  split at h
  · obtain ⟨f, hf, hread⟩ := exists_of_bind_eq_ok h
    have hsize := Cart.size_of_readSections (TextFile.nodup_of_ofBytes hf) hread .sounds
    have hstart : ∀ p : Cart.Part, p.size
        { Cart.blank Cart.standardVersion with version := f.version, label := none } = p.fullSize := by
      intro p
      rw [← Cart.fullSize_iff.mp (Cart.fullSize_blank Cart.standardVersion) p]
      cases p <;> rfl
    rw [hstart] at hsize
    cases hlines : f.sections.lookup Cart.Part.sounds.name with
    | none | some ls =>
      rw [hlines] at hsize
      exact Nat.le_of_eq hsize
  · split at h
    · obtain ⟨u, -, h⟩ := exists_of_bind_eq_ok h
      obtain ⟨program, -, h⟩ := exists_of_bind_eq_ok h
      cases h
      simp only [Array.size_extract]
      omega
    · cases h

end Command
end Cartridge
