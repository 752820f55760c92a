import Cartridge.Linking.Package
import Cartridge.Proofs.Lua.FirstStatements

/-!
# Libraries without their game loop

The functions of the game loop are taken out of a library's tree, and what is left is written by a pen
that follows the tokens of the whole library.  As long as they stand behind everything else, the pen does
not come to them, and the package has all other statements.  A statement behind such a function is written
over the function's tokens instead of its own.
-/

namespace Cartridge.Linking

open Lua

def keptStatements (p : Program) : List Tree := p.root.statements.filter fun s => !isGameLoop s

def loopIsLast (p : Program) : Bool :=
  (p.root.statements.dropWhile fun s => !isGameLoop s).all isGameLoop

theorem isA_of_isGameLoop {t : Tree} (h : isGameLoop t = true) : t.isA .statFunction = true := by
  unfold isGameLoop at h
  split at h
  · rfl
  · cases h

theorem exists_root {v : Int} {pieces : List Bytes} (hcut : LineCut pieces) {p : Program}
    (hp : Program.ofLines v pieces = .ok p) : ∃ origin, p.root = .node .chunk [.list p.root.statements] origin := by
  obtain ⟨ls, root, -, hroot, rfl⟩ := (Program.ofLines_eq_ok_iff hcut).mp hp
  obtain ⟨stop, hderived⟩ := Tree.derived_of_ofTokens hroot
  obtain ⟨rule, -⟩ := hderived
  cases rule with
  | block => exact ⟨_, rfl⟩

section Filtering

variable {α : Type} {q : α → Bool}

theorem filter_of_dropWhile {as : List α} (h : (as.dropWhile fun a => !q a).all q = true) :
    as.filter (fun a => !q a) = as.takeWhile fun a => !q a := by
  induction as with
  | nil => rfl
  | cons a as ih =>
    cases ha : q a with
    | false =>
      rw [List.dropWhile_cons_of_pos (by rw [ha]; rfl)] at h
      rw [List.filter_cons_of_pos (by rw [ha]; rfl), List.takeWhile_cons_of_pos (by rw [ha]; rfl), ih h]
    | true =>
      rw [List.dropWhile_cons_of_neg (by rw [ha]; exact Bool.noConfusion)] at h
      rw [List.takeWhile_cons_of_neg (by rw [ha]; exact Bool.noConfusion), List.filter_eq_nil_iff]
      intro b hb
      rw [List.all_eq_true.mp h b hb]
      exact Bool.noConfusion

end Filtering

theorem withoutGameLoop_of_loopIsLast {source : Bytes} (hlast : source.getLast? = some Bytes.newline)
    {p : Program} (hp : Program.ofLines libraryVersion (Bytes.lines source) = .ok p)
    (hcovered : p.isCovered = true) (hloop : loopIsLast p = true)
    (hlegible : Tree.legibleAll p.tokens (keptStatements p) = true) :
    ∃ q, withoutGameLoop p = .ok q ∧ q.isCovered = true ∧
      q.root.statements.map Tree.unplaced = (keptStatements p).map Tree.unplaced := by
  have hcut := lineCut_lines source
  obtain ⟨origin, hroot⟩ := exists_root hcut hp
  have hdrop : dropStatements isGameLoop p.root = .node .chunk [.list (keptStatements p)] origin := by
    rw [keptStatements, hroot]
    rfl
  have hkept : keptStatements p = p.root.statements.takeWhile fun s => !isGameLoop s :=
    filter_of_dropWhile hloop
  have hall := List.takeWhile_append_dropWhile (p := fun s => !isGameLoop s) (l := p.root.statements)
  rw [← hkept] at hall
  rw [withoutGameLoop, hdrop]
  cases hrest : p.root.statements.dropWhile fun s => !isGameLoop s with
  | nil =>
    -- there is no game loop, and the whole tree is written
    rw [hrest, List.append_nil] at hall
    rw [hall, ← hroot]
    have hwhole : p.root.legible p.tokens = true := by
      rw [hroot, ← hall]
      simpa [Tree.legible, Tree.legibleAll] using hlegible
    rw [← Bytes.flatten_lines source] at hlast
    obtain ⟨q, hq, hcovered', hsame⟩ := Program.reread_whole hcut hp hlast hcovered hwhole
    exact ⟨q, hq, hcovered', by rw [← Tree.statements_unplaced, hsame, Tree.statements_unplaced]⟩
  | cons t rest =>
    rw [hrest] at hall
    rw [loopIsLast, hrest, List.all_cons, Bool.and_eq_true] at hloop
    rw [← hall] at hroot
    exact Program.reread_before hcut hp hroot (isA_of_isGameLoop hloop.1) hlegible

/-- **A library whose game loop is last becomes a package of all its other statements**, in their order:
one that ends in a newline, whose tree reaches all words, and whose other statements can be written from
the tree. -/
theorem addRequired_without_loop {d : Disk} {l : LoadPath} {file path : List Char}
    {more : Program → List Char → Packages → Except Failure Packages} {ps : Packages} {r : Require}
    {content : Content} {p : Program} (hinside : leavesPath r.name = false) (hnew : ps.has r.name = false)
    (hpath : pathOf d l r file = .ok path) (hread : d.read path = .ok content)
    (hwithout : r.gameLoop = false) (hlast : content.data.getLast? = some Bytes.newline)
    (hp : Program.ofLines libraryVersion (Bytes.lines content.data) = .ok p)
    (hcovered : p.isCovered = true) (hloop : loopIsLast p = true)
    (hlegible : Tree.legibleAll p.tokens (keptStatements p) = true) :
    ∃ q, addRequired d l file more ps r = more q path (ps ++ [(r.name, q)]) ∧ q.isCovered = true ∧
      q.root.statements.map Tree.unplaced = (keptStatements p).map Tree.unplaced := by
  obtain ⟨q, hq, hcovered', hstats⟩ := withoutGameLoop_of_loopIsLast hlast hp hcovered hloop hlegible
  refine ⟨q, ?_, hcovered', hstats⟩
  have hlibrary : readLibrary content.data r.gameLoop = .ok q := by
    rw [readLibrary, hp, hwithout]
    exact hq
  obtain ⟨text, htext⟩ : ∃ text, nameText r.name = .ok text := by
    cases htext : nameText r.name with
    | ok text => exact ⟨text, rfl⟩
    | error e =>
      rw [pathOf, htext] at hpath
      cases hpath
  rw [addRequired, htext, hinside, hnew, hpath]
  show (d.read path >>= fun c => readLibrary c.data r.gameLoop >>= fun p =>
    more p path (ps ++ [(r.name, p)])) = _
  rw [hread]
  show (readLibrary content.data r.gameLoop >>= fun p => more p path (ps ++ [(r.name, p)])) = _
  rw [hlibrary]
  rfl

def loopSample : Bytes :=
  Bytes.ofText "local t = {1} ; x=t[1] -- x\nfunction f() return 'a' end;;\nfunction _init() x=2 end\n"

def loopDisk : Disk := { files := [([['l']], .bytes loopSample)] }

def loopRequire : Require := { name := Bytes.ofText "l", gameLoop := false, token := default }

theorem addRequired_without_loop_sample : ∃ p q,
    Program.ofLines libraryVersion (Bytes.lines loopSample) = .ok p ∧
    p.root.statements.length = 4 ∧ (keptStatements p).length = 3 ∧
    addRequired loopDisk {} "m".toList (fun _ _ ps => .ok ps) [] loopRequire =
      .ok [(Bytes.ofText "l", q)] ∧ q.isCovered = true ∧
    q.root.statements.map Tree.unplaced = (keptStatements p).map Tree.unplaced := by
  have hsample : (Program.ofLines libraryVersion (Bytes.lines loopSample)).toOption.map
      (fun p => (p.isCovered && loopIsLast p && Tree.legibleAll p.tokens (keptStatements p),
        p.root.statements.length, (keptStatements p).length)) = some (true, 4, 3) := by
    decide +kernel
  cases hp : Program.ofLines libraryVersion (Bytes.lines loopSample) with
  | error e =>
    rw [hp] at hsample
    cases hsample
  | ok p =>
    rw [hp] at hsample
    simp only [Except.toOption, Option.map_some, Option.some.injEq, Prod.mk.injEq,
      Bool.and_eq_true] at hsample
    obtain ⟨⟨⟨hcovered, hloop⟩, hlegible⟩, hall, hkept⟩ := hsample
    have hpath : pathOf loopDisk {} loopRequire "m".toList = .ok "l".toList := by decide +kernel
    have hread : loopDisk.read "l".toList = .ok (.bytes loopSample) := by decide +kernel
    obtain ⟨q, hq, hrest⟩ : ∃ q, addRequired loopDisk {} "m".toList (fun _ _ ps => .ok ps) [] loopRequire =
        .ok ([] ++ [(loopRequire.name, q)]) ∧ q.isCovered = true ∧
        q.root.statements.map Tree.unplaced = (keptStatements p).map Tree.unplaced :=
      addRequired_without_loop (by decide +kernel) rfl hpath hread rfl (by decide +kernel) hp hcovered hloop
        hlegible
    exact ⟨p, q, rfl, hall, hkept, hq, hrest⟩

def loopFirst : Bytes := Bytes.ofText "function _init() end\nreturn 1\n"

/-- A library with its game loop in front cannot be read without it. -/
theorem readLibrary_loop_first :
    (Program.ofLines libraryVersion (Bytes.lines loopFirst)).toOption.map
      (fun p => (p.isCovered, (keptStatements p).map (·.isA .statReturn))) = some (true, [true]) ∧
    (match readLibrary loopFirst false with
      | .ok _ => none
      | .error e => some e) = some .unmetCondition := by
  decide +kernel

end Cartridge.Linking
