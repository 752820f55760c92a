/-!
# How to turn a cart upside down
-/

namespace Cartridge.Flip

structure Options where
  /-- The memory that the map and the sprite sheet share holds sprites. -/
  smallMap : Bool := false
  /-- Left and right are swapped on the controls, and so are up and down. -/
  buttons : Bool := false
  sounds : Bool := false
deriving DecidableEq, Repr, Inhabited

end Cartridge.Flip
