import Cartridge.Cart.Image
import Cartridge.Cart.TextFile

/-!
# Sample carts

Two carts to try readers and writers on. One plays the game of life: its program is long enough to be
packed in its picture. The other prints a greeting: its picture holds the program as plain text.
-/

namespace Cartridge.Sample

def repeated (count : Nat) (line : String) : Bytes :=
  (List.replicate count (Bytes.ofText (line ++ "\n"))).flatten

def zeros (count : Nat) : String := "".pushn '0' count

def lifeLines : List String :=
  [ "-- game of life: v1", "-- by dddaaannn", "", "alive_color = 7; width = 128; height = 128",
    "", "board_i = 1", "boards = \x7b\x7b\x7d, \x7b\x7d\x7d", "", "cls()", "for y=1,height do",
    "  boards[1][y] = \x7b\x7d", "  boards[2][y] = \x7b\x7d", "  for x=1,width do",
    "    boards[1][y][x] = 0", "    boards[2][y][x] = 0", "  end", "end", "  ",
    "-- draw an r pentomino", "boards[1][60][64] = 1", "boards[1][60][65] = 1",
    "boards[1][61][63] = 1", "boards[1][61][64] = 1", "boards[1][62][64] = 1", "",
    "function get(bi,x,y)", "  if ((x < 1) or (x > width) or (y < 1) or (y > height)) then",
    "    return 0", "  end", "  return boards[bi][y][x]", "end", "", "while true do",
    "  for y=1,height do", "    for x=1,width do",
    "      pset(x-1,y-1,boards[board_i][y][x] * alive_color)", "    end", "  end", "  flip()",
    "", "  other_i = (board_i % 2) + 1", "  for y=1,height do", "    for x=1,width do       ",
    "      neighbors = (", "        get(board_i,x-1,y-1) +", "        get(board_i,x,y-1) +",
    "        get(board_i,x+1,y-1) +", "        get(board_i,x-1,y) +",
    "        get(board_i,x+1,y) +", "        get(board_i,x-1,y+1) +",
    "        get(board_i,x,y+1) +", "        get(board_i,x+1,y+1))",
    "      if ((neighbors == 3) or",
    "          ((boards[board_i][y][x] == 1) and neighbors == 2)) then",
    "        boards[other_i][y][x] = 1", "      else", "        boards[other_i][y][x] = 0",
    "      end", "    end", "  end", "  board_i = other_i", "end", "" ]

def lifeText : Bytes :=
  TextFile.titleLine ++ repeated 1 "version 5" ++ repeated 1 "__lua__" ++
    lifeLines.flatMap (repeated 1) ++
    repeated 1 "__gfx__" ++ repeated 128 (zeros 128) ++
    repeated 1 "__gff__" ++ repeated 2 (zeros 256) ++
    repeated 1 "__map__" ++ repeated 32 (zeros 256) ++
    repeated 1 "__sfx__" ++ repeated 1 ("0001" ++ zeros 164) ++ repeated 63 ("0010" ++ zeros 164) ++
    repeated 1 "__music__" ++ repeated 64 "00 41424344" ++ repeated 1 ""

/-- What the picture of a cart holds that has empty regions but for its sprites and its code. -/
def plainImage (sprites : Region) (code : Bytes) (version : UInt8) : Array UInt8 :=
  Cart.fitImage (sprites ++ TileMap.blank ++ SpriteFlags.blank ++ Songs.blank ++ Sounds.blank ++
    (CodeRegion.pad code).toArray ++ #[version])

/-- The program of the game of life as it is packed in its picture, in hexadecimal. -/
def lifePacked : List String :=
  [ "3a633a0004c20000002d002d02130d1911021b12021815121136022204013d140e25021010100d0d0d1a1a1a",
    "01010d181522113b0f1b181b1e0233020a370223151020143c1b04050b37021411151314203c4e01010e1b0d",
    "1e103b153d2d3c4c1f3f132c2c2d39022c2d2d01010f181f2a2b01124019253304393f5b101b0102023e4d2e",
    "042f2e252f3f232d3d84053da43f2c243f1c44443f3b3fcd2e244020033da840313d88111a10013c2402024a",
    "2c101e0d23020d1a021e021c111a201b19151a1b475a442d09033c1407452249603d76083df63f20063efc40",
    "2640f209491541680112211a0f20151b1a021311202a0e15392439252b4d131512022a2a24023002042b0253",
    "1b3c1b31534b3c4f253d8a253d1a54482b2b022014111a4d361e1120211e1a4b733d71525b0e154e5f4c3d01",
    "231415181102201e2111554156f5523a53ff532f02021c1f471a24002d0439253c1442605c4b556435026098",
    "492f4566544b1218151c5d1b5c1a1b48111e60332a606e2902052b0232611345f745f75d46454602455e1a66",
    "230e1b1e642c2a475202524d664f39475b42153dff3d3f3dfd3fac323ffc41fb41f93fac43f645a53245f545",
    "953dfd45c53f1c5249605c4c9833020661254c7d02621b57f8704c7a182b6e111050a7335511629a7494575e",
    "748a57255a3d181f113efd3eed774767605ec2818b5e527835" ]

def lifeImage : Array UInt8 :=
  plainImage SpriteSheet.blank ((Hex.decode? (lifePacked.flatMap Bytes.ofText)).getD []) 5

def greetingImage : Array UInt8 :=
  plainImage Cart.crossSheet (Bytes.ofText "print(\"0.1.10c\")\n") 8

end Cartridge.Sample
