import Cartridge.Cart.Basic
import Cartridge.Flip.Options

/-!
# Turning a cart upside down

Every tile of the sprite sheet is turned half round, and so is the map as a whole. Sounds are
reversed if asked for. The program stays as it is.
-/

namespace Cartridge.Flip

abbrev CartEdit := EStateM Failure Cart

def onSprites (e : Region.Edit Unit) : CartEdit Unit := fun c =>
  match e.run c.sprites with
  | .ok _ r => .ok () { c with sprites := r }
  | .error f r => .error f { c with sprites := r }

def onSounds (e : Region.Edit Unit) : CartEdit Unit := fun c =>
  match e.run c.sounds with
  | .ok _ r => .ok () { c with sounds := r }
  | .error f r => .error f { c with sounds := r }

def onTileMap (e : TileMap.Edit Unit) : CartEdit Unit := fun c =>
  match e.run c.tileMap with
  | .ok _ m => .ok () (c.setTileMap m)
  | .error f m => .error f (c.setTileMap m)

def look {σ α : Type} (f : σ → Except Failure α) : EStateM Failure σ α := do
  match f (← get) with
  | .ok a => pure a
  | .error e => throw e

/-- Rows turned half round, as numbers. -/
def halfTurn (rows : List Bytes) : List (List Int) :=
  rows.reverse.map fun row => row.reverse.map fun b => (b.toNat : Int)

def sprite (id : Nat) : Region.Edit Unit := do
  let rows ← look fun r => SpriteSheet.sprite r id 1 1
  SpriteSheet.draw id (halfTurn rows) 0 0

/-- Turns the tiles of the sprite sheet, those in its second half only if they are sprites. -/
def sprites (o : Options) : Region.Edit Unit :=
  (List.range (if o.smallMap then 256 else 128)).forM sprite

def tiles (o : Options) : TileMap.Edit Unit := do
  let rows ← look fun m => m.tiles 0 0 128 (if o.smallMap then 32 else 64)
  TileMap.setTiles 0 0 (halfTurn rows)

def allOf (n : Note) : NoteChange where
  pitch := some n.pitch.toNat
  waveform := some n.waveform.toNat
  volume := some n.volume.toNat
  effect := some n.effect.toNat

def storeNotes (id : Nat) (k : Nat) : List Note → Region.Edit Unit
  | [] => pure ()
  | n :: rest => do
    Sounds.setNote id k (allOf n)
    storeNotes id (k + 1) rest

def pattern (id : Nat) : Region.Edit Unit := do
  let notes ← look fun r => (List.range 32).mapM fun (n : Nat) => Sounds.note r id n
  storeNotes id 0 notes.reverse
  let s ← look fun r => Sounds.settings r id
  if s.loopStart ≠ 0 then Sounds.setSettings id { loopStart := some (63 - s.loopEnd.toNat) }
  if s.loopEnd ≠ 0 then Sounds.setSettings id { loopEnd := some (63 - s.loopStart.toNat) }

/-- Reverses the patterns, all but the last. -/
def sounds : Region.Edit Unit := (List.range 63).forM pattern

def cart (o : Options) : CartEdit Unit := do
  onSprites (sprites o)
  onTileMap (tiles o)
  if o.sounds then onSounds sounds

end Cartridge.Flip
