import Mathlib.Algebra.Group.Nat.Even

/-!
# The two fonts

`fonts/cream12.data` and `fonts/monaco.data`, one numeral for each line of a file: the bytes
of the line, first byte in the highest place. A line of the glyph sections is one glyph
(32 bytes in `cream12`, 16 in `monaco`), and `glyphByte` reads byte `i` of such a section as
`font[i]` does in `fb.c`.
-/

namespace Marcelov

set_option maxRecDepth 2000

/-- Byte `i` of a section whose lines hold `size` bytes each. -/
def glyphByte (lines : List ℕ) (size i : ℕ) : ℕ :=
  lines.getD (i / size) 0 / 256 ^ (size - 1 - i % size) % 256

/-- The glyphs of `cream12`, from the space on. -/
def cream12 : List ℕ := [
  0x0000000000000000000000000000000000000000000000000000000000000000,
  0x0000004040404040404000400000000000000000000000000000000000000000,
  0x0000005050500000000000000000000000000000000000000000000000000000,
  0x0000000012127f2424fe48480000000000000000000000000000000000000000,
  0x0000002070a8a07028a870200000000000000000000000000000000000000000,
  0x00000048a8b050205068a8900000000000000000000000000000000000000000,
  0x000000609090a040a09488740000000000000000000000000000000000000000,
  0x0000004040400000000000000000000000000000000000000000000000000000,
  0x0000102020404040404040202010000000000000000000000000000000000000,
  0x0000402020101010101010202040000000000000000000000000000000000000,
  0x00000000105438ee385410000000000000000000000000000000000000000000,
  0x00000000002020f8202000000000000000000000000000000000000000000000,
  0x0000000000000000000000404080000000000000000000000000000000000000,
  0x00000000000000f8000000000000000000000000000000000000000000000000,
  0x0000000000000000000000400000000000000000000000000000000000000000,
  0x0000000808101020204040808000000000000000000000000000000000000000,
  0x0000007884848484848484780000000000000000000000000000000000000000,
  0x00000040c0404040404040400000000000000000000000000000000000000000,
  0x0000007884040418608080fc0000000000000000000000000000000000000000,
  0x000000fc04081804040484780000000000000000000000000000000000000000,
  0x000000182828484888fc08080000000000000000000000000000000000000000,
  0x000000fc8080f804040484780000000000000000000000000000000000000000,
  0x000000384080f884848484780000000000000000000000000000000000000000,
  0x000000fc04040808101020200000000000000000000000000000000000000000,
  0x0000007884847884848484780000000000000000000000000000000000000000,
  0x00000078848484847c0408700000000000000000000000000000000000000000,
  0x0000000000400000004000000000000000000000000000000000000000000000,
  0x0000000000400000004040800000000000000000000000000000000000000000,
  0x0000000000204080402000000000000000000000000000000000000000000000,
  0x000000000000f800f80000000000000000000000000000000000000000000000,
  0x0000000000804020408000000000000000000000000000000000000000000000,
  0x0000007088880810202000200000000000000000000000000000000000000000,
  0x000000003c4299a5a5a5ad964030000000000000000000000000000000000000,
  0x00000010102828447c8282820000000000000000000000000000000000000000,
  0x000000f8848484f8848484f80000000000000000000000000000000000000000,
  0x0000003844808080808044380000000000000000000000000000000000000000,
  0x000000f088848484848488f00000000000000000000000000000000000000000,
  0x000000f8808080f0808084f80000000000000000000000000000000000000000,
  0x000000f8808080f0808080800000000000000000000000000000000000000000,
  0x000000384480808c8484443c0000000000000000000000000000000000000000,
  0x00000084848484fc848484840000000000000000000000000000000000000000,
  0x000000e040404040404040e00000000000000000000000000000000000000000,
  0x0000002020202020202020204080000000000000000000000000000000000000,
  0x000000848890a0c0a09088840000000000000000000000000000000000000000,
  0x0000008080808080808080fc0000000000000000000000000000000000000000,
  0x00000080c1c1a2a2949488880000000000000080808080808080808000000000,
  0x00000084c4c4a4a4948c8c840000000000000000000000000000000000000000,
  0x0000003844828282828244380000000000000000000000000000000000000000,
  0x000000f8848484f8808080800000000000000000000000000000000000000000,
  0x0000003844828282828a443b0000000000000000000000000000800000000000,
  0x000000f8848484f8908889860000000000000000000000000000000000000000,
  0x0000007884804030080484780000000000000000000000000000000000000000,
  0x000000fe10101010101010100000000000000000000000000000000000000000,
  0x0000008484848484848c95660000000000000000000000000000000000000000,
  0x0000008282444428282810100000000000000000000000000000000000000000,
  0x00000084844444442a2a11110000000000000020204040408080000000000000,
  0x0000008244442810284444820000000000000000000000000000000000000000,
  0x0000008244442810101010100000000000000000000000000000000000000000,
  0x000000fc04081020408082fc0000000000000000000000000000000000000000,
  0x0000604040404040404040404060000000000000000000000000000000000000,
  0x0000008080404020201010080800000000000000000000000000000000000000,
  0x0000602020202020202020202060000000000000000000000000000000000000,
  0x0000002050880000000000000000000000000000000000000000000000000000,
  0x0000000000000000000000f80000000000000000000000000000000000000000,
  0x0000008040000000000000000000000000000000000000000000000000000000,
  0x00000000003848888898aa4c0000000000000000000000000000000000000000,
  0x0000008080b0c888888890e00000000000000000000000000000000000000000,
  0x0000000000304880808890600000000000000000000000000000000000000000,
  0x00000008083848888898aa4c0000000000000000000000000000000000000000,
  0x00000000001824485064c8300000000000000000000000000000000000000000,
  0x00000000304040f0404040404040400000000000000000000000000000000000,
  0x00000000003848888898a8480810600000000000000000000000000000000000,
  0x0000008080b0c88888888a8c0000000000000000000000000000000000000000,
  0x000000400040c040404050600000000000000000000000000000000000000000,
  0x0000002000206020202020202040800000000000000000000000000000000000,
  0x0000008080b0c888f0a0928c0000000000000000000000000000000000000000,
  0x00000080808080808080a0c00000000000000000000000000000000000000000,
  0x0000000000d96644444444440000000000000000008040404040506000000000,
  0x0000000000d86444444445460000000000000000000000000000000000000000,
  0x0000000000708888888888700000000000000000000000000000000000000000,
  0x000000000058e444444448704040400000000000000000000000000000000000,
  0x00000000003848888898a848080a0c0000000000000000000000000000000000,
  0x000000000058e040404040400000000000000000000000000000000000000000,
  0x0000000000708880700888700000000000000000000000000000000000000000,
  0x000000004070c040404050600000000000000000000000000000000000000000,
  0x000000000044c444444c55260000000000000000000000000000000000000000,
  0x0000000000c84444444850600000000000000000000000000000000000000000,
  0x0000000000c444444c5465460000000000000000008040404080000000000000,
  0x0000000000885050205050880000000000000000000000000000000000000000,
  0x000000000044c444444c54240408300000000000000000000000000000000000,
  0x0000000000f80810204084f80000000000000000000000000000000000000000,
  0x0000102020202040402020202010000000000000000000000000000000000000,
  0x0000404040404040404040404040000000000000000000000000000000000000,
  0x0000402020202010102020202040000000000000000000000000000000000000,
  0x00000000000060920c0000000000000000000000000000000000000000000000,
  0xaa55aa55aa55aa55aa55aa55aa55aa5500000000000000000000000000000000]

/-- The advance widths of `cream12`, one for each character below 128. -/
def cream12Width : List ℕ := [
  7, 7, 7, 7, 7, 7, 7, 7, 7, 16, 16, 7, 7, 7, 7, 7,
  7, 7, 7, 7, 7, 7, 7, 7, 7, 7, 7, 7, 7, 7, 7, 7,
  4, 3, 5, 9, 6, 6, 8, 3, 5, 5, 8, 6, 3, 6, 3, 6,
  7, 3, 7, 7, 7, 7, 7, 7, 7, 7, 4, 4, 4, 6, 4, 6,
  9, 8, 7, 7, 7, 6, 6, 7, 7, 4, 4, 7, 7, 10, 7, 8,
  7, 9, 8, 7, 7, 8, 8, 12, 8, 8, 7, 4, 6, 4, 6, 5,
  3, 7, 6, 6, 7, 7, 5, 6, 7, 4, 4, 7, 3, 12, 8, 6,
  7, 7, 6, 6, 5, 8, 7, 11, 6, 7, 6, 5, 3, 5, 8, 8]

/-- The glyphs of `monaco`, from the space on. -/
def monaco : List ℕ := [
  0x00000000000000000000000000000000, 0x00000010101010101000101000000000,
  0x00000028282800000000000000000000, 0x000000287c28287c2800000000000000,
  0x00001038545030181414543810000000, 0x00000024545838102834544800000000,
  0x000000609090a040a094887400000000, 0x00000010101000000000000000000000,
  0x00000810102020202020101008000000, 0x00002010100808080808101020000000,
  0x00000010543838541000000000000000, 0x000000000010107c1010000000000000,
  0x00000000000000000000101010200000, 0x000000000000007c0000000000000000,
  0x00000000000000000000101000000000, 0x00000004040808101020204040000000,
  0x00000038444444444444443800000000, 0x00000010301010101010101000000000,
  0x00000038440404081020407c00000000, 0x00000038440418040404443800000000,
  0x000000081828487c0808080800000000, 0x0000007c404078040404443800000000,
  0x00000018204078444444443800000000, 0x0000007c040408101010101000000000,
  0x00000038444438444444443800000000, 0x00000038444444443c04083000000000,
  0x00000000000010100000101000000000, 0x00000000000010100000101010200000,
  0x00000000081020402010080000000000, 0x0000000000007c007c00000000000000,
  0x00000000201008040810200000000000, 0x00000038440408101000101000000000,
  0x00000000007884b4b4bc807800000000, 0x000000384444447c4444444400000000,
  0x00000078444478444444447800000000, 0x00000038444440404040443800000000,
  0x00000078444444444444447800000000, 0x0000007c404040784040407c00000000,
  0x0000007c404040784040404000000000, 0x000000384440404c4444443800000000,
  0x000000444444447c4444444400000000, 0x00000010101010101010101000000000,
  0x00000004040404040444443800000000, 0x00000044485060406050484400000000,
  0x00000040404040404040407c00000000, 0x000000446c5444444444444400000000,
  0x000000444464544c4444444400000000, 0x00000038444444444444443800000000,
  0x00000078444444784040404000000000, 0x00000038444444444444443810080000,
  0x00000078444444784444444400000000, 0x00000038444040380404443800000000,
  0x0000007c101010101010101000000000, 0x00000044444444444444443800000000,
  0x00000044444444444444281000000000, 0x000000444444444444546c4400000000,
  0x00000044444428102844444400000000, 0x00000044444444281010101000000000,
  0x0000007c040408102040407c00000000, 0x00003820202020202020202038000000,
  0x00000040402020101008080404000000, 0x00003808080808080808080838000000,
  0x00000010284400000000000000000000, 0x0000000000000000000000fe00000000,
  0x00000010080000000000000000000000, 0x0000000000003c4444444c3400000000,
  0x00000040404078444444447800000000, 0x00000000000038444040443800000000,
  0x0000000404043c444444443c00000000, 0x00000000000038447c40443800000000,
  0x0000000c101038101010101000000000, 0x0000000000003c444444443c04443800,
  0x00000040404078444444444400000000, 0x00000010100010101010101000000000,
  0x00000010100010101010101010106000, 0x00000040404048506050484400000000,
  0x00000010101010101010101000000000, 0x00000000000078545454545400000000,
  0x00000000000078444444444400000000, 0x00000000000038444444443800000000,
  0x00000000000078444444447840400000, 0x0000000000003c444444443c04040000,
  0x00000000000058644440404000000000, 0x00000000000038443804443800000000,
  0x00000000202070202020201800000000, 0x000000000000444444444c3400000000,
  0x00000000000044444444281000000000, 0x00000000000054545454542800000000,
  0x00000000000044281010284400000000, 0x00000000000044444444443c04443800,
  0x0000000000007c081020407c00000000, 0x00000810101010201010101008000000,
  0x00001010101010101010101010000000, 0x00002010101010081010101020000000,
  0x00000034580000000000000000000000]

@[simp] theorem length_cream12 : cream12.length = 96 := rfl

@[simp] theorem length_cream12Width : cream12Width.length = 128 := rfl

/-- Every width of the table is positive and fits in the two 8-pixel blocks of a glyph. -/
theorem cream12Width_bounds : ∀ w ∈ cream12Width, 0 < w ∧ w ≤ 16 := by decide

end Marcelov
