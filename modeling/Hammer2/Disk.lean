/-
# `Hammer2.Disk` — sizes, radixes and type codes of the media format

The constants of `hammer2_disk.h`, under the source's names without the
`HAMMER2_` prefix.  They are reducible numerals: arithmetic about them is
closed by unfolding them (`simp only [segSize]`) and `omega`.
-/

namespace Hammer2

/-! ## Allocation and freemap granularity -/

abbrev allocMin : Nat := 1024
abbrev allocMax : Nat := 65536
abbrev radixMin : Nat := 10
abbrev radixMax : Nat := 16
abbrev pbufRadix : Nat := 16
abbrev pbufSize : Nat := 65536

/-- One bitmap pair covers 16KB. -/
abbrev freemapBlockRadix : Nat := 14
abbrev freemapBlockSize : Nat := 16384

/-- One `bmap_data` entry covers 4MB, one level-1 leaf covers 1GB; the
reserved segment at the base of each zone is 4MB long. -/
abbrev segSize : Nat := 4194304
abbrev freemapLevel0Size : Nat := 4194304
abbrev freemapLevel1Size : Nat := 1073741824
abbrev zoneSeg : Nat := 4194304
abbrev freemapCount : Nat := 256
abbrev freemapLevelNPsize : Nat := 32768

abbrev bmapElements : Nat := 8
abbrev bmapBitsPerElement : Nat := 64
abbrev bmapBlocksPerElement : Nat := 32
/-- Bytes covered by one 64-bit element: 32 blocks of 16KB. -/
abbrev bmapIndexSize : Nat := 524288

/-! ## Blockref types -/

abbrev brefTypeEmpty : Nat := 0
abbrev brefTypeInode : Nat := 1
abbrev brefTypeIndirect : Nat := 2
abbrev brefTypeData : Nat := 3
abbrev brefTypeDirent : Nat := 4

/-! ## Check and compression methods -/

abbrev checkNone : Nat := 0
abbrev checkDisabled : Nat := 1
abbrev checkIscsi32 : Nat := 2
abbrev checkXxhash64 : Nat := 3
abbrev checkSha192 : Nat := 4

abbrev compNone : Nat := 0
abbrev compAutozero : Nat := 1
abbrev compLz4 : Nat := 2
abbrev compZlib : Nat := 3

abbrev setCount : Nat := 4
abbrev embeddedBytes : Nat := 512

end Hammer2
