import Cartridge.Cart.Image
import Cartridge.Cart.Patch
import Cartridge.Cart.TextFile
import Cartridge.Command.Arguments
import Cartridge.Command.Build
import Cartridge.Command.Listing
import Cartridge.Command.Processing
import Cartridge.Command.Session
import Cartridge.Command.Tool
import Cartridge.Command.UpsideDown
import Cartridge.Flip.Calls
import Cartridge.Flip.Cart
import Cartridge.Linking.LoadPath
import Cartridge.Linking.Package
import Cartridge.Linking.Require
import Cartridge.Lua.Program
import Cartridge.Lua.TokenGroups
import Cartridge.Main
import Cartridge.Memory.Songs
import Cartridge.Memory.Sounds
import Cartridge.Memory.SpriteFlags
import Cartridge.Memory.TileMap
import Cartridge.Numeral.Shortest
import Cartridge.Packed.CodeRegion
import Cartridge.Picture
import Cartridge.Proofs.Cart.CodeOverflow
import Cartridge.Proofs.Cart.CodeSize
import Cartridge.Proofs.Cart.ImageRoundTrip
import Cartridge.Proofs.Cart.LoadedSizes
import Cartridge.Proofs.Cart.Patching
import Cartridge.Proofs.Cart.Sections
import Cartridge.Proofs.Cart.TextRoundTrip
import Cartridge.Proofs.Command.Actions
import Cartridge.Proofs.Command.Building
import Cartridge.Proofs.Flip.Backwards
import Cartridge.Proofs.Flip.HalfTurn
import Cartridge.Proofs.Linking.Climbing
import Cartridge.Proofs.Linking.GameLoop
import Cartridge.Proofs.Linking.LinkedText
import Cartridge.Proofs.Linking.Prepending
import Cartridge.Proofs.Linking.RequireCalls
import Cartridge.Proofs.Linking.Resolution
import Cartridge.Proofs.Lua.Alignment
import Cartridge.Proofs.Lua.Barrier
import Cartridge.Proofs.Lua.Content
import Cartridge.Proofs.Lua.Covered
import Cartridge.Proofs.Lua.Derivation
import Cartridge.Proofs.Lua.DistinctNames
import Cartridge.Proofs.Lua.Echo
import Cartridge.Proofs.Lua.Embedding
import Cartridge.Proofs.Lua.Ensures
import Cartridge.Proofs.Lua.FirstMatch
import Cartridge.Proofs.Lua.FirstStatements
import Cartridge.Proofs.Lua.Formatting
import Cartridge.Proofs.Lua.GapLayout
import Cartridge.Proofs.Lua.GapReading
import Cartridge.Proofs.Lua.InStep
import Cartridge.Proofs.Lua.Joining
import Cartridge.Proofs.Lua.JumpTargets
import Cartridge.Proofs.Lua.LaidTwice
import Cartridge.Proofs.Lua.Legible
import Cartridge.Proofs.Lua.Lexeme
import Cartridge.Proofs.Lua.LineLimit
import Cartridge.Proofs.Lua.Minifying
import Cartridge.Proofs.Lua.Moves
import Cartridge.Proofs.Lua.Neighbours
import Cartridge.Proofs.Lua.Nesting
import Cartridge.Proofs.Lua.NodeSpans
import Cartridge.Proofs.Lua.Nodes
import Cartridge.Proofs.Lua.NumeralEnd
import Cartridge.Proofs.Lua.NumeralValue
import Cartridge.Proofs.Lua.Parsing
import Cartridge.Proofs.Lua.Phrases
import Cartridge.Proofs.Lua.Pieces
import Cartridge.Proofs.Lua.PlainText
import Cartridge.Proofs.Lua.Quoted
import Cartridge.Proofs.Lua.Reading
import Cartridge.Proofs.Lua.Regeneration
import Cartridge.Proofs.Lua.Reparsing
import Cartridge.Proofs.Lua.Resaving
import Cartridge.Proofs.Lua.Restorable
import Cartridge.Proofs.Lua.Restoring
import Cartridge.Proofs.Lua.RestoringBlocks
import Cartridge.Proofs.Lua.RestoringParts
import Cartridge.Proofs.Lua.Retraced
import Cartridge.Proofs.Lua.Retracing
import Cartridge.Proofs.Lua.Rows
import Cartridge.Proofs.Lua.RuleOrder
import Cartridge.Proofs.Lua.ScriptWords
import Cartridge.Proofs.Lua.Series
import Cartridge.Proofs.Lua.ShortNames
import Cartridge.Proofs.Lua.SourceFaults
import Cartridge.Proofs.Lua.Stepwise
import Cartridge.Proofs.Lua.Tiling
import Cartridge.Proofs.Lua.Termination
import Cartridge.Proofs.Lua.TokenText
import Cartridge.Proofs.Lua.TreeEcho
import Cartridge.Proofs.Lua.Truncation
import Cartridge.Proofs.Lua.Weight
import Cartridge.Proofs.Lua.WholeText
import Cartridge.Proofs.Lua.Window
import Cartridge.Proofs.Lua.Windowed
import Cartridge.Proofs.Lua.WritingFaults
import Cartridge.Proofs.Memory.Boards
import Cartridge.Proofs.Memory.MapCells
import Cartridge.Proofs.Memory.RegionSizes
import Cartridge.Proofs.Memory.RegionText
import Cartridge.Proofs.Memory.SongText
import Cartridge.Proofs.Memory.SoundRegisters
import Cartridge.Proofs.Memory.SoundText
import Cartridge.Proofs.Memory.SpritePixels
import Cartridge.Proofs.Packed.CodeRegion
import Cartridge.Proofs.Packed.Emission
import Cartridge.Proofs.Packed.Expansion
import Cartridge.Proofs.Packed.Fallback
import Cartridge.Proofs.Packed.Plan
import Cartridge.Proofs.Packed.PlanLength
import Cartridge.Proofs.Packed.RoundTrip
import Cartridge.Proofs.Packed.Suffixes
import Cartridge.Proofs.Picture
import Cartridge.Proofs.Text.Cut
import Cartridge.Proofs.Text.Hex
import Cartridge.Proofs.Text.Lines
import Cartridge.Text.Slice
import Cartridge.Trial
