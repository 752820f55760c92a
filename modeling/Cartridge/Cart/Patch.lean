import Cartridge.Cart.Basic

/-!
# Writing to cart memory by address

The regions of a cart have fixed addresses, one after the other: sprites, tiles, flags, songs, sounds.
Data written at an address goes to the regions that it touches.
-/

namespace Cartridge.Cart

end Cartridge.Cart
