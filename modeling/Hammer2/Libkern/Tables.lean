/-
# `Hammer2.Libkern.Tables` — the tables of the checksum

Each has 256 entries: what a byte leaves in the register after so many places.  `slice_eq` says
how many, and that every entry is right.
-/
import Hammer2.Lib.Crc

namespace Hammer2.Libkern

open Crc

/-- The reflected Castagnoli polynomial. -/
def castagnoli : BitVec 32 := 0x82F63B78#32

def crc32Table : List (BitVec 32) := [
  0x00000000#32, 0xf26b8303#32, 0xe13b70f7#32, 0x1350f3f4#32, 0xc79a971f#32, 0x35f1141c#32, 0x26a1e7e8#32, 0xd4ca64eb#32,
  0x8ad958cf#32, 0x78b2dbcc#32, 0x6be22838#32, 0x9989ab3b#32, 0x4d43cfd0#32, 0xbf284cd3#32, 0xac78bf27#32, 0x5e133c24#32,
  0x105ec76f#32, 0xe235446c#32, 0xf165b798#32, 0x030e349b#32, 0xd7c45070#32, 0x25afd373#32, 0x36ff2087#32, 0xc494a384#32,
  0x9a879fa0#32, 0x68ec1ca3#32, 0x7bbcef57#32, 0x89d76c54#32, 0x5d1d08bf#32, 0xaf768bbc#32, 0xbc267848#32, 0x4e4dfb4b#32,
  0x20bd8ede#32, 0xd2d60ddd#32, 0xc186fe29#32, 0x33ed7d2a#32, 0xe72719c1#32, 0x154c9ac2#32, 0x061c6936#32, 0xf477ea35#32,
  0xaa64d611#32, 0x580f5512#32, 0x4b5fa6e6#32, 0xb93425e5#32, 0x6dfe410e#32, 0x9f95c20d#32, 0x8cc531f9#32, 0x7eaeb2fa#32,
  0x30e349b1#32, 0xc288cab2#32, 0xd1d83946#32, 0x23b3ba45#32, 0xf779deae#32, 0x05125dad#32, 0x1642ae59#32, 0xe4292d5a#32,
  0xba3a117e#32, 0x4851927d#32, 0x5b016189#32, 0xa96ae28a#32, 0x7da08661#32, 0x8fcb0562#32, 0x9c9bf696#32, 0x6ef07595#32,
  0x417b1dbc#32, 0xb3109ebf#32, 0xa0406d4b#32, 0x522bee48#32, 0x86e18aa3#32, 0x748a09a0#32, 0x67dafa54#32, 0x95b17957#32,
  0xcba24573#32, 0x39c9c670#32, 0x2a993584#32, 0xd8f2b687#32, 0x0c38d26c#32, 0xfe53516f#32, 0xed03a29b#32, 0x1f682198#32,
  0x5125dad3#32, 0xa34e59d0#32, 0xb01eaa24#32, 0x42752927#32, 0x96bf4dcc#32, 0x64d4cecf#32, 0x77843d3b#32, 0x85efbe38#32,
  0xdbfc821c#32, 0x2997011f#32, 0x3ac7f2eb#32, 0xc8ac71e8#32, 0x1c661503#32, 0xee0d9600#32, 0xfd5d65f4#32, 0x0f36e6f7#32,
  0x61c69362#32, 0x93ad1061#32, 0x80fde395#32, 0x72966096#32, 0xa65c047d#32, 0x5437877e#32, 0x4767748a#32, 0xb50cf789#32,
  0xeb1fcbad#32, 0x197448ae#32, 0x0a24bb5a#32, 0xf84f3859#32, 0x2c855cb2#32, 0xdeeedfb1#32, 0xcdbe2c45#32, 0x3fd5af46#32,
  0x7198540d#32, 0x83f3d70e#32, 0x90a324fa#32, 0x62c8a7f9#32, 0xb602c312#32, 0x44694011#32, 0x5739b3e5#32, 0xa55230e6#32,
  0xfb410cc2#32, 0x092a8fc1#32, 0x1a7a7c35#32, 0xe811ff36#32, 0x3cdb9bdd#32, 0xceb018de#32, 0xdde0eb2a#32, 0x2f8b6829#32,
  0x82f63b78#32, 0x709db87b#32, 0x63cd4b8f#32, 0x91a6c88c#32, 0x456cac67#32, 0xb7072f64#32, 0xa457dc90#32, 0x563c5f93#32,
  0x082f63b7#32, 0xfa44e0b4#32, 0xe9141340#32, 0x1b7f9043#32, 0xcfb5f4a8#32, 0x3dde77ab#32, 0x2e8e845f#32, 0xdce5075c#32,
  0x92a8fc17#32, 0x60c37f14#32, 0x73938ce0#32, 0x81f80fe3#32, 0x55326b08#32, 0xa759e80b#32, 0xb4091bff#32, 0x466298fc#32,
  0x1871a4d8#32, 0xea1a27db#32, 0xf94ad42f#32, 0x0b21572c#32, 0xdfeb33c7#32, 0x2d80b0c4#32, 0x3ed04330#32, 0xccbbc033#32,
  0xa24bb5a6#32, 0x502036a5#32, 0x4370c551#32, 0xb11b4652#32, 0x65d122b9#32, 0x97baa1ba#32, 0x84ea524e#32, 0x7681d14d#32,
  0x2892ed69#32, 0xdaf96e6a#32, 0xc9a99d9e#32, 0x3bc21e9d#32, 0xef087a76#32, 0x1d63f975#32, 0x0e330a81#32, 0xfc588982#32,
  0xb21572c9#32, 0x407ef1ca#32, 0x532e023e#32, 0xa145813d#32, 0x758fe5d6#32, 0x87e466d5#32, 0x94b49521#32, 0x66df1622#32,
  0x38cc2a06#32, 0xcaa7a905#32, 0xd9f75af1#32, 0x2b9cd9f2#32, 0xff56bd19#32, 0x0d3d3e1a#32, 0x1e6dcdee#32, 0xec064eed#32,
  0xc38d26c4#32, 0x31e6a5c7#32, 0x22b65633#32, 0xd0ddd530#32, 0x0417b1db#32, 0xf67c32d8#32, 0xe52cc12c#32, 0x1747422f#32,
  0x49547e0b#32, 0xbb3ffd08#32, 0xa86f0efc#32, 0x5a048dff#32, 0x8ecee914#32, 0x7ca56a17#32, 0x6ff599e3#32, 0x9d9e1ae0#32,
  0xd3d3e1ab#32, 0x21b862a8#32, 0x32e8915c#32, 0xc083125f#32, 0x144976b4#32, 0xe622f5b7#32, 0xf5720643#32, 0x07198540#32,
  0x590ab964#32, 0xab613a67#32, 0xb831c993#32, 0x4a5a4a90#32, 0x9e902e7b#32, 0x6cfbad78#32, 0x7fab5e8c#32, 0x8dc0dd8f#32,
  0xe330a81a#32, 0x115b2b19#32, 0x020bd8ed#32, 0xf0605bee#32, 0x24aa3f05#32, 0xd6c1bc06#32, 0xc5914ff2#32, 0x37faccf1#32,
  0x69e9f0d5#32, 0x9b8273d6#32, 0x88d28022#32, 0x7ab90321#32, 0xae7367ca#32, 0x5c18e4c9#32, 0x4f48173d#32, 0xbd23943e#32,
  0xf36e6f75#32, 0x0105ec76#32, 0x12551f82#32, 0xe03e9c81#32, 0x34f4f86a#32, 0xc69f7b69#32, 0xd5cf889d#32, 0x27a40b9e#32,
  0x79b737ba#32, 0x8bdcb4b9#32, 0x988c474d#32, 0x6ae7c44e#32, 0xbe2da0a5#32, 0x4c4623a6#32, 0x5f16d052#32, 0xad7d5351#32]

def sctpCrcTableil8O32 : List (BitVec 32) := [
  0x00000000#32, 0xf26b8303#32, 0xe13b70f7#32, 0x1350f3f4#32, 0xc79a971f#32, 0x35f1141c#32, 0x26a1e7e8#32, 0xd4ca64eb#32,
  0x8ad958cf#32, 0x78b2dbcc#32, 0x6be22838#32, 0x9989ab3b#32, 0x4d43cfd0#32, 0xbf284cd3#32, 0xac78bf27#32, 0x5e133c24#32,
  0x105ec76f#32, 0xe235446c#32, 0xf165b798#32, 0x030e349b#32, 0xd7c45070#32, 0x25afd373#32, 0x36ff2087#32, 0xc494a384#32,
  0x9a879fa0#32, 0x68ec1ca3#32, 0x7bbcef57#32, 0x89d76c54#32, 0x5d1d08bf#32, 0xaf768bbc#32, 0xbc267848#32, 0x4e4dfb4b#32,
  0x20bd8ede#32, 0xd2d60ddd#32, 0xc186fe29#32, 0x33ed7d2a#32, 0xe72719c1#32, 0x154c9ac2#32, 0x061c6936#32, 0xf477ea35#32,
  0xaa64d611#32, 0x580f5512#32, 0x4b5fa6e6#32, 0xb93425e5#32, 0x6dfe410e#32, 0x9f95c20d#32, 0x8cc531f9#32, 0x7eaeb2fa#32,
  0x30e349b1#32, 0xc288cab2#32, 0xd1d83946#32, 0x23b3ba45#32, 0xf779deae#32, 0x05125dad#32, 0x1642ae59#32, 0xe4292d5a#32,
  0xba3a117e#32, 0x4851927d#32, 0x5b016189#32, 0xa96ae28a#32, 0x7da08661#32, 0x8fcb0562#32, 0x9c9bf696#32, 0x6ef07595#32,
  0x417b1dbc#32, 0xb3109ebf#32, 0xa0406d4b#32, 0x522bee48#32, 0x86e18aa3#32, 0x748a09a0#32, 0x67dafa54#32, 0x95b17957#32,
  0xcba24573#32, 0x39c9c670#32, 0x2a993584#32, 0xd8f2b687#32, 0x0c38d26c#32, 0xfe53516f#32, 0xed03a29b#32, 0x1f682198#32,
  0x5125dad3#32, 0xa34e59d0#32, 0xb01eaa24#32, 0x42752927#32, 0x96bf4dcc#32, 0x64d4cecf#32, 0x77843d3b#32, 0x85efbe38#32,
  0xdbfc821c#32, 0x2997011f#32, 0x3ac7f2eb#32, 0xc8ac71e8#32, 0x1c661503#32, 0xee0d9600#32, 0xfd5d65f4#32, 0x0f36e6f7#32,
  0x61c69362#32, 0x93ad1061#32, 0x80fde395#32, 0x72966096#32, 0xa65c047d#32, 0x5437877e#32, 0x4767748a#32, 0xb50cf789#32,
  0xeb1fcbad#32, 0x197448ae#32, 0x0a24bb5a#32, 0xf84f3859#32, 0x2c855cb2#32, 0xdeeedfb1#32, 0xcdbe2c45#32, 0x3fd5af46#32,
  0x7198540d#32, 0x83f3d70e#32, 0x90a324fa#32, 0x62c8a7f9#32, 0xb602c312#32, 0x44694011#32, 0x5739b3e5#32, 0xa55230e6#32,
  0xfb410cc2#32, 0x092a8fc1#32, 0x1a7a7c35#32, 0xe811ff36#32, 0x3cdb9bdd#32, 0xceb018de#32, 0xdde0eb2a#32, 0x2f8b6829#32,
  0x82f63b78#32, 0x709db87b#32, 0x63cd4b8f#32, 0x91a6c88c#32, 0x456cac67#32, 0xb7072f64#32, 0xa457dc90#32, 0x563c5f93#32,
  0x082f63b7#32, 0xfa44e0b4#32, 0xe9141340#32, 0x1b7f9043#32, 0xcfb5f4a8#32, 0x3dde77ab#32, 0x2e8e845f#32, 0xdce5075c#32,
  0x92a8fc17#32, 0x60c37f14#32, 0x73938ce0#32, 0x81f80fe3#32, 0x55326b08#32, 0xa759e80b#32, 0xb4091bff#32, 0x466298fc#32,
  0x1871a4d8#32, 0xea1a27db#32, 0xf94ad42f#32, 0x0b21572c#32, 0xdfeb33c7#32, 0x2d80b0c4#32, 0x3ed04330#32, 0xccbbc033#32,
  0xa24bb5a6#32, 0x502036a5#32, 0x4370c551#32, 0xb11b4652#32, 0x65d122b9#32, 0x97baa1ba#32, 0x84ea524e#32, 0x7681d14d#32,
  0x2892ed69#32, 0xdaf96e6a#32, 0xc9a99d9e#32, 0x3bc21e9d#32, 0xef087a76#32, 0x1d63f975#32, 0x0e330a81#32, 0xfc588982#32,
  0xb21572c9#32, 0x407ef1ca#32, 0x532e023e#32, 0xa145813d#32, 0x758fe5d6#32, 0x87e466d5#32, 0x94b49521#32, 0x66df1622#32,
  0x38cc2a06#32, 0xcaa7a905#32, 0xd9f75af1#32, 0x2b9cd9f2#32, 0xff56bd19#32, 0x0d3d3e1a#32, 0x1e6dcdee#32, 0xec064eed#32,
  0xc38d26c4#32, 0x31e6a5c7#32, 0x22b65633#32, 0xd0ddd530#32, 0x0417b1db#32, 0xf67c32d8#32, 0xe52cc12c#32, 0x1747422f#32,
  0x49547e0b#32, 0xbb3ffd08#32, 0xa86f0efc#32, 0x5a048dff#32, 0x8ecee914#32, 0x7ca56a17#32, 0x6ff599e3#32, 0x9d9e1ae0#32,
  0xd3d3e1ab#32, 0x21b862a8#32, 0x32e8915c#32, 0xc083125f#32, 0x144976b4#32, 0xe622f5b7#32, 0xf5720643#32, 0x07198540#32,
  0x590ab964#32, 0xab613a67#32, 0xb831c993#32, 0x4a5a4a90#32, 0x9e902e7b#32, 0x6cfbad78#32, 0x7fab5e8c#32, 0x8dc0dd8f#32,
  0xe330a81a#32, 0x115b2b19#32, 0x020bd8ed#32, 0xf0605bee#32, 0x24aa3f05#32, 0xd6c1bc06#32, 0xc5914ff2#32, 0x37faccf1#32,
  0x69e9f0d5#32, 0x9b8273d6#32, 0x88d28022#32, 0x7ab90321#32, 0xae7367ca#32, 0x5c18e4c9#32, 0x4f48173d#32, 0xbd23943e#32,
  0xf36e6f75#32, 0x0105ec76#32, 0x12551f82#32, 0xe03e9c81#32, 0x34f4f86a#32, 0xc69f7b69#32, 0xd5cf889d#32, 0x27a40b9e#32,
  0x79b737ba#32, 0x8bdcb4b9#32, 0x988c474d#32, 0x6ae7c44e#32, 0xbe2da0a5#32, 0x4c4623a6#32, 0x5f16d052#32, 0xad7d5351#32]

def sctpCrcTableil8O40 : List (BitVec 32) := [
  0x00000000#32, 0x13a29877#32, 0x274530ee#32, 0x34e7a899#32, 0x4e8a61dc#32, 0x5d28f9ab#32, 0x69cf5132#32, 0x7a6dc945#32,
  0x9d14c3b8#32, 0x8eb65bcf#32, 0xba51f356#32, 0xa9f36b21#32, 0xd39ea264#32, 0xc03c3a13#32, 0xf4db928a#32, 0xe7790afd#32,
  0x3fc5f181#32, 0x2c6769f6#32, 0x1880c16f#32, 0x0b225918#32, 0x714f905d#32, 0x62ed082a#32, 0x560aa0b3#32, 0x45a838c4#32,
  0xa2d13239#32, 0xb173aa4e#32, 0x859402d7#32, 0x96369aa0#32, 0xec5b53e5#32, 0xfff9cb92#32, 0xcb1e630b#32, 0xd8bcfb7c#32,
  0x7f8be302#32, 0x6c297b75#32, 0x58ced3ec#32, 0x4b6c4b9b#32, 0x310182de#32, 0x22a31aa9#32, 0x1644b230#32, 0x05e62a47#32,
  0xe29f20ba#32, 0xf13db8cd#32, 0xc5da1054#32, 0xd6788823#32, 0xac154166#32, 0xbfb7d911#32, 0x8b507188#32, 0x98f2e9ff#32,
  0x404e1283#32, 0x53ec8af4#32, 0x670b226d#32, 0x74a9ba1a#32, 0x0ec4735f#32, 0x1d66eb28#32, 0x298143b1#32, 0x3a23dbc6#32,
  0xdd5ad13b#32, 0xcef8494c#32, 0xfa1fe1d5#32, 0xe9bd79a2#32, 0x93d0b0e7#32, 0x80722890#32, 0xb4958009#32, 0xa737187e#32,
  0xff17c604#32, 0xecb55e73#32, 0xd852f6ea#32, 0xcbf06e9d#32, 0xb19da7d8#32, 0xa23f3faf#32, 0x96d89736#32, 0x857a0f41#32,
  0x620305bc#32, 0x71a19dcb#32, 0x45463552#32, 0x56e4ad25#32, 0x2c896460#32, 0x3f2bfc17#32, 0x0bcc548e#32, 0x186eccf9#32,
  0xc0d23785#32, 0xd370aff2#32, 0xe797076b#32, 0xf4359f1c#32, 0x8e585659#32, 0x9dface2e#32, 0xa91d66b7#32, 0xbabffec0#32,
  0x5dc6f43d#32, 0x4e646c4a#32, 0x7a83c4d3#32, 0x69215ca4#32, 0x134c95e1#32, 0x00ee0d96#32, 0x3409a50f#32, 0x27ab3d78#32,
  0x809c2506#32, 0x933ebd71#32, 0xa7d915e8#32, 0xb47b8d9f#32, 0xce1644da#32, 0xddb4dcad#32, 0xe9537434#32, 0xfaf1ec43#32,
  0x1d88e6be#32, 0x0e2a7ec9#32, 0x3acdd650#32, 0x296f4e27#32, 0x53028762#32, 0x40a01f15#32, 0x7447b78c#32, 0x67e52ffb#32,
  0xbf59d487#32, 0xacfb4cf0#32, 0x981ce469#32, 0x8bbe7c1e#32, 0xf1d3b55b#32, 0xe2712d2c#32, 0xd69685b5#32, 0xc5341dc2#32,
  0x224d173f#32, 0x31ef8f48#32, 0x050827d1#32, 0x16aabfa6#32, 0x6cc776e3#32, 0x7f65ee94#32, 0x4b82460d#32, 0x5820de7a#32,
  0xfbc3faf9#32, 0xe861628e#32, 0xdc86ca17#32, 0xcf245260#32, 0xb5499b25#32, 0xa6eb0352#32, 0x920cabcb#32, 0x81ae33bc#32,
  0x66d73941#32, 0x7575a136#32, 0x419209af#32, 0x523091d8#32, 0x285d589d#32, 0x3bffc0ea#32, 0x0f186873#32, 0x1cbaf004#32,
  0xc4060b78#32, 0xd7a4930f#32, 0xe3433b96#32, 0xf0e1a3e1#32, 0x8a8c6aa4#32, 0x992ef2d3#32, 0xadc95a4a#32, 0xbe6bc23d#32,
  0x5912c8c0#32, 0x4ab050b7#32, 0x7e57f82e#32, 0x6df56059#32, 0x1798a91c#32, 0x043a316b#32, 0x30dd99f2#32, 0x237f0185#32,
  0x844819fb#32, 0x97ea818c#32, 0xa30d2915#32, 0xb0afb162#32, 0xcac27827#32, 0xd960e050#32, 0xed8748c9#32, 0xfe25d0be#32,
  0x195cda43#32, 0x0afe4234#32, 0x3e19eaad#32, 0x2dbb72da#32, 0x57d6bb9f#32, 0x447423e8#32, 0x70938b71#32, 0x63311306#32,
  0xbb8de87a#32, 0xa82f700d#32, 0x9cc8d894#32, 0x8f6a40e3#32, 0xf50789a6#32, 0xe6a511d1#32, 0xd242b948#32, 0xc1e0213f#32,
  0x26992bc2#32, 0x353bb3b5#32, 0x01dc1b2c#32, 0x127e835b#32, 0x68134a1e#32, 0x7bb1d269#32, 0x4f567af0#32, 0x5cf4e287#32,
  0x04d43cfd#32, 0x1776a48a#32, 0x23910c13#32, 0x30339464#32, 0x4a5e5d21#32, 0x59fcc556#32, 0x6d1b6dcf#32, 0x7eb9f5b8#32,
  0x99c0ff45#32, 0x8a626732#32, 0xbe85cfab#32, 0xad2757dc#32, 0xd74a9e99#32, 0xc4e806ee#32, 0xf00fae77#32, 0xe3ad3600#32,
  0x3b11cd7c#32, 0x28b3550b#32, 0x1c54fd92#32, 0x0ff665e5#32, 0x759baca0#32, 0x663934d7#32, 0x52de9c4e#32, 0x417c0439#32,
  0xa6050ec4#32, 0xb5a796b3#32, 0x81403e2a#32, 0x92e2a65d#32, 0xe88f6f18#32, 0xfb2df76f#32, 0xcfca5ff6#32, 0xdc68c781#32,
  0x7b5fdfff#32, 0x68fd4788#32, 0x5c1aef11#32, 0x4fb87766#32, 0x35d5be23#32, 0x26772654#32, 0x12908ecd#32, 0x013216ba#32,
  0xe64b1c47#32, 0xf5e98430#32, 0xc10e2ca9#32, 0xd2acb4de#32, 0xa8c17d9b#32, 0xbb63e5ec#32, 0x8f844d75#32, 0x9c26d502#32,
  0x449a2e7e#32, 0x5738b609#32, 0x63df1e90#32, 0x707d86e7#32, 0x0a104fa2#32, 0x19b2d7d5#32, 0x2d557f4c#32, 0x3ef7e73b#32,
  0xd98eedc6#32, 0xca2c75b1#32, 0xfecbdd28#32, 0xed69455f#32, 0x97048c1a#32, 0x84a6146d#32, 0xb041bcf4#32, 0xa3e32483#32]

def sctpCrcTableil8O48 : List (BitVec 32) := [
  0x00000000#32, 0xa541927e#32, 0x4f6f520d#32, 0xea2ec073#32, 0x9edea41a#32, 0x3b9f3664#32, 0xd1b1f617#32, 0x74f06469#32,
  0x38513ec5#32, 0x9d10acbb#32, 0x773e6cc8#32, 0xd27ffeb6#32, 0xa68f9adf#32, 0x03ce08a1#32, 0xe9e0c8d2#32, 0x4ca15aac#32,
  0x70a27d8a#32, 0xd5e3eff4#32, 0x3fcd2f87#32, 0x9a8cbdf9#32, 0xee7cd990#32, 0x4b3d4bee#32, 0xa1138b9d#32, 0x045219e3#32,
  0x48f3434f#32, 0xedb2d131#32, 0x079c1142#32, 0xa2dd833c#32, 0xd62de755#32, 0x736c752b#32, 0x9942b558#32, 0x3c032726#32,
  0xe144fb14#32, 0x4405696a#32, 0xae2ba919#32, 0x0b6a3b67#32, 0x7f9a5f0e#32, 0xdadbcd70#32, 0x30f50d03#32, 0x95b49f7d#32,
  0xd915c5d1#32, 0x7c5457af#32, 0x967a97dc#32, 0x333b05a2#32, 0x47cb61cb#32, 0xe28af3b5#32, 0x08a433c6#32, 0xade5a1b8#32,
  0x91e6869e#32, 0x34a714e0#32, 0xde89d493#32, 0x7bc846ed#32, 0x0f382284#32, 0xaa79b0fa#32, 0x40577089#32, 0xe516e2f7#32,
  0xa9b7b85b#32, 0x0cf62a25#32, 0xe6d8ea56#32, 0x43997828#32, 0x37691c41#32, 0x92288e3f#32, 0x78064e4c#32, 0xdd47dc32#32,
  0xc76580d9#32, 0x622412a7#32, 0x880ad2d4#32, 0x2d4b40aa#32, 0x59bb24c3#32, 0xfcfab6bd#32, 0x16d476ce#32, 0xb395e4b0#32,
  0xff34be1c#32, 0x5a752c62#32, 0xb05bec11#32, 0x151a7e6f#32, 0x61ea1a06#32, 0xc4ab8878#32, 0x2e85480b#32, 0x8bc4da75#32,
  0xb7c7fd53#32, 0x12866f2d#32, 0xf8a8af5e#32, 0x5de93d20#32, 0x29195949#32, 0x8c58cb37#32, 0x66760b44#32, 0xc337993a#32,
  0x8f96c396#32, 0x2ad751e8#32, 0xc0f9919b#32, 0x65b803e5#32, 0x1148678c#32, 0xb409f5f2#32, 0x5e273581#32, 0xfb66a7ff#32,
  0x26217bcd#32, 0x8360e9b3#32, 0x694e29c0#32, 0xcc0fbbbe#32, 0xb8ffdfd7#32, 0x1dbe4da9#32, 0xf7908dda#32, 0x52d11fa4#32,
  0x1e704508#32, 0xbb31d776#32, 0x511f1705#32, 0xf45e857b#32, 0x80aee112#32, 0x25ef736c#32, 0xcfc1b31f#32, 0x6a802161#32,
  0x56830647#32, 0xf3c29439#32, 0x19ec544a#32, 0xbcadc634#32, 0xc85da25d#32, 0x6d1c3023#32, 0x8732f050#32, 0x2273622e#32,
  0x6ed23882#32, 0xcb93aafc#32, 0x21bd6a8f#32, 0x84fcf8f1#32, 0xf00c9c98#32, 0x554d0ee6#32, 0xbf63ce95#32, 0x1a225ceb#32,
  0x8b277743#32, 0x2e66e53d#32, 0xc448254e#32, 0x6109b730#32, 0x15f9d359#32, 0xb0b84127#32, 0x5a968154#32, 0xffd7132a#32,
  0xb3764986#32, 0x1637dbf8#32, 0xfc191b8b#32, 0x595889f5#32, 0x2da8ed9c#32, 0x88e97fe2#32, 0x62c7bf91#32, 0xc7862def#32,
  0xfb850ac9#32, 0x5ec498b7#32, 0xb4ea58c4#32, 0x11abcaba#32, 0x655baed3#32, 0xc01a3cad#32, 0x2a34fcde#32, 0x8f756ea0#32,
  0xc3d4340c#32, 0x6695a672#32, 0x8cbb6601#32, 0x29faf47f#32, 0x5d0a9016#32, 0xf84b0268#32, 0x1265c21b#32, 0xb7245065#32,
  0x6a638c57#32, 0xcf221e29#32, 0x250cde5a#32, 0x804d4c24#32, 0xf4bd284d#32, 0x51fcba33#32, 0xbbd27a40#32, 0x1e93e83e#32,
  0x5232b292#32, 0xf77320ec#32, 0x1d5de09f#32, 0xb81c72e1#32, 0xccec1688#32, 0x69ad84f6#32, 0x83834485#32, 0x26c2d6fb#32,
  0x1ac1f1dd#32, 0xbf8063a3#32, 0x55aea3d0#32, 0xf0ef31ae#32, 0x841f55c7#32, 0x215ec7b9#32, 0xcb7007ca#32, 0x6e3195b4#32,
  0x2290cf18#32, 0x87d15d66#32, 0x6dff9d15#32, 0xc8be0f6b#32, 0xbc4e6b02#32, 0x190ff97c#32, 0xf321390f#32, 0x5660ab71#32,
  0x4c42f79a#32, 0xe90365e4#32, 0x032da597#32, 0xa66c37e9#32, 0xd29c5380#32, 0x77ddc1fe#32, 0x9df3018d#32, 0x38b293f3#32,
  0x7413c95f#32, 0xd1525b21#32, 0x3b7c9b52#32, 0x9e3d092c#32, 0xeacd6d45#32, 0x4f8cff3b#32, 0xa5a23f48#32, 0x00e3ad36#32,
  0x3ce08a10#32, 0x99a1186e#32, 0x738fd81d#32, 0xd6ce4a63#32, 0xa23e2e0a#32, 0x077fbc74#32, 0xed517c07#32, 0x4810ee79#32,
  0x04b1b4d5#32, 0xa1f026ab#32, 0x4bdee6d8#32, 0xee9f74a6#32, 0x9a6f10cf#32, 0x3f2e82b1#32, 0xd50042c2#32, 0x7041d0bc#32,
  0xad060c8e#32, 0x08479ef0#32, 0xe2695e83#32, 0x4728ccfd#32, 0x33d8a894#32, 0x96993aea#32, 0x7cb7fa99#32, 0xd9f668e7#32,
  0x9557324b#32, 0x3016a035#32, 0xda386046#32, 0x7f79f238#32, 0x0b899651#32, 0xaec8042f#32, 0x44e6c45c#32, 0xe1a75622#32,
  0xdda47104#32, 0x78e5e37a#32, 0x92cb2309#32, 0x378ab177#32, 0x437ad51e#32, 0xe63b4760#32, 0x0c158713#32, 0xa954156d#32,
  0xe5f54fc1#32, 0x40b4ddbf#32, 0xaa9a1dcc#32, 0x0fdb8fb2#32, 0x7b2bebdb#32, 0xde6a79a5#32, 0x3444b9d6#32, 0x91052ba8#32]

def sctpCrcTableil8O56 : List (BitVec 32) := [
  0x00000000#32, 0xdd45aab8#32, 0xbf672381#32, 0x62228939#32, 0x7b2231f3#32, 0xa6679b4b#32, 0xc4451272#32, 0x1900b8ca#32,
  0xf64463e6#32, 0x2b01c95e#32, 0x49234067#32, 0x9466eadf#32, 0x8d665215#32, 0x5023f8ad#32, 0x32017194#32, 0xef44db2c#32,
  0xe964b13d#32, 0x34211b85#32, 0x560392bc#32, 0x8b463804#32, 0x924680ce#32, 0x4f032a76#32, 0x2d21a34f#32, 0xf06409f7#32,
  0x1f20d2db#32, 0xc2657863#32, 0xa047f15a#32, 0x7d025be2#32, 0x6402e328#32, 0xb9474990#32, 0xdb65c0a9#32, 0x06206a11#32,
  0xd725148b#32, 0x0a60be33#32, 0x6842370a#32, 0xb5079db2#32, 0xac072578#32, 0x71428fc0#32, 0x136006f9#32, 0xce25ac41#32,
  0x2161776d#32, 0xfc24ddd5#32, 0x9e0654ec#32, 0x4343fe54#32, 0x5a43469e#32, 0x8706ec26#32, 0xe524651f#32, 0x3861cfa7#32,
  0x3e41a5b6#32, 0xe3040f0e#32, 0x81268637#32, 0x5c632c8f#32, 0x45639445#32, 0x98263efd#32, 0xfa04b7c4#32, 0x27411d7c#32,
  0xc805c650#32, 0x15406ce8#32, 0x7762e5d1#32, 0xaa274f69#32, 0xb327f7a3#32, 0x6e625d1b#32, 0x0c40d422#32, 0xd1057e9a#32,
  0xaba65fe7#32, 0x76e3f55f#32, 0x14c17c66#32, 0xc984d6de#32, 0xd0846e14#32, 0x0dc1c4ac#32, 0x6fe34d95#32, 0xb2a6e72d#32,
  0x5de23c01#32, 0x80a796b9#32, 0xe2851f80#32, 0x3fc0b538#32, 0x26c00df2#32, 0xfb85a74a#32, 0x99a72e73#32, 0x44e284cb#32,
  0x42c2eeda#32, 0x9f874462#32, 0xfda5cd5b#32, 0x20e067e3#32, 0x39e0df29#32, 0xe4a57591#32, 0x8687fca8#32, 0x5bc25610#32,
  0xb4868d3c#32, 0x69c32784#32, 0x0be1aebd#32, 0xd6a40405#32, 0xcfa4bccf#32, 0x12e11677#32, 0x70c39f4e#32, 0xad8635f6#32,
  0x7c834b6c#32, 0xa1c6e1d4#32, 0xc3e468ed#32, 0x1ea1c255#32, 0x07a17a9f#32, 0xdae4d027#32, 0xb8c6591e#32, 0x6583f3a6#32,
  0x8ac7288a#32, 0x57828232#32, 0x35a00b0b#32, 0xe8e5a1b3#32, 0xf1e51979#32, 0x2ca0b3c1#32, 0x4e823af8#32, 0x93c79040#32,
  0x95e7fa51#32, 0x48a250e9#32, 0x2a80d9d0#32, 0xf7c57368#32, 0xeec5cba2#32, 0x3380611a#32, 0x51a2e823#32, 0x8ce7429b#32,
  0x63a399b7#32, 0xbee6330f#32, 0xdcc4ba36#32, 0x0181108e#32, 0x1881a844#32, 0xc5c402fc#32, 0xa7e68bc5#32, 0x7aa3217d#32,
  0x52a0c93f#32, 0x8fe56387#32, 0xedc7eabe#32, 0x30824006#32, 0x2982f8cc#32, 0xf4c75274#32, 0x96e5db4d#32, 0x4ba071f5#32,
  0xa4e4aad9#32, 0x79a10061#32, 0x1b838958#32, 0xc6c623e0#32, 0xdfc69b2a#32, 0x02833192#32, 0x60a1b8ab#32, 0xbde41213#32,
  0xbbc47802#32, 0x6681d2ba#32, 0x04a35b83#32, 0xd9e6f13b#32, 0xc0e649f1#32, 0x1da3e349#32, 0x7f816a70#32, 0xa2c4c0c8#32,
  0x4d801be4#32, 0x90c5b15c#32, 0xf2e73865#32, 0x2fa292dd#32, 0x36a22a17#32, 0xebe780af#32, 0x89c50996#32, 0x5480a32e#32,
  0x8585ddb4#32, 0x58c0770c#32, 0x3ae2fe35#32, 0xe7a7548d#32, 0xfea7ec47#32, 0x23e246ff#32, 0x41c0cfc6#32, 0x9c85657e#32,
  0x73c1be52#32, 0xae8414ea#32, 0xcca69dd3#32, 0x11e3376b#32, 0x08e38fa1#32, 0xd5a62519#32, 0xb784ac20#32, 0x6ac10698#32,
  0x6ce16c89#32, 0xb1a4c631#32, 0xd3864f08#32, 0x0ec3e5b0#32, 0x17c35d7a#32, 0xca86f7c2#32, 0xa8a47efb#32, 0x75e1d443#32,
  0x9aa50f6f#32, 0x47e0a5d7#32, 0x25c22cee#32, 0xf8878656#32, 0xe1873e9c#32, 0x3cc29424#32, 0x5ee01d1d#32, 0x83a5b7a5#32,
  0xf90696d8#32, 0x24433c60#32, 0x4661b559#32, 0x9b241fe1#32, 0x8224a72b#32, 0x5f610d93#32, 0x3d4384aa#32, 0xe0062e12#32,
  0x0f42f53e#32, 0xd2075f86#32, 0xb025d6bf#32, 0x6d607c07#32, 0x7460c4cd#32, 0xa9256e75#32, 0xcb07e74c#32, 0x16424df4#32,
  0x106227e5#32, 0xcd278d5d#32, 0xaf050464#32, 0x7240aedc#32, 0x6b401616#32, 0xb605bcae#32, 0xd4273597#32, 0x09629f2f#32,
  0xe6264403#32, 0x3b63eebb#32, 0x59416782#32, 0x8404cd3a#32, 0x9d0475f0#32, 0x4041df48#32, 0x22635671#32, 0xff26fcc9#32,
  0x2e238253#32, 0xf36628eb#32, 0x9144a1d2#32, 0x4c010b6a#32, 0x5501b3a0#32, 0x88441918#32, 0xea669021#32, 0x37233a99#32,
  0xd867e1b5#32, 0x05224b0d#32, 0x6700c234#32, 0xba45688c#32, 0xa345d046#32, 0x7e007afe#32, 0x1c22f3c7#32, 0xc167597f#32,
  0xc747336e#32, 0x1a0299d6#32, 0x782010ef#32, 0xa565ba57#32, 0xbc65029d#32, 0x6120a825#32, 0x0302211c#32, 0xde478ba4#32,
  0x31035088#32, 0xec46fa30#32, 0x8e647309#32, 0x5321d9b1#32, 0x4a21617b#32, 0x9764cbc3#32, 0xf54642fa#32, 0x2803e842#32]

def sctpCrcTableil8O64 : List (BitVec 32) := [
  0x00000000#32, 0x38116fac#32, 0x7022df58#32, 0x4833b0f4#32, 0xe045beb0#32, 0xd854d11c#32, 0x906761e8#32, 0xa8760e44#32,
  0xc5670b91#32, 0xfd76643d#32, 0xb545d4c9#32, 0x8d54bb65#32, 0x2522b521#32, 0x1d33da8d#32, 0x55006a79#32, 0x6d1105d5#32,
  0x8f2261d3#32, 0xb7330e7f#32, 0xff00be8b#32, 0xc711d127#32, 0x6f67df63#32, 0x5776b0cf#32, 0x1f45003b#32, 0x27546f97#32,
  0x4a456a42#32, 0x725405ee#32, 0x3a67b51a#32, 0x0276dab6#32, 0xaa00d4f2#32, 0x9211bb5e#32, 0xda220baa#32, 0xe2336406#32,
  0x1ba8b557#32, 0x23b9dafb#32, 0x6b8a6a0f#32, 0x539b05a3#32, 0xfbed0be7#32, 0xc3fc644b#32, 0x8bcfd4bf#32, 0xb3debb13#32,
  0xdecfbec6#32, 0xe6ded16a#32, 0xaeed619e#32, 0x96fc0e32#32, 0x3e8a0076#32, 0x069b6fda#32, 0x4ea8df2e#32, 0x76b9b082#32,
  0x948ad484#32, 0xac9bbb28#32, 0xe4a80bdc#32, 0xdcb96470#32, 0x74cf6a34#32, 0x4cde0598#32, 0x04edb56c#32, 0x3cfcdac0#32,
  0x51eddf15#32, 0x69fcb0b9#32, 0x21cf004d#32, 0x19de6fe1#32, 0xb1a861a5#32, 0x89b90e09#32, 0xc18abefd#32, 0xf99bd151#32,
  0x37516aae#32, 0x0f400502#32, 0x4773b5f6#32, 0x7f62da5a#32, 0xd714d41e#32, 0xef05bbb2#32, 0xa7360b46#32, 0x9f2764ea#32,
  0xf236613f#32, 0xca270e93#32, 0x8214be67#32, 0xba05d1cb#32, 0x1273df8f#32, 0x2a62b023#32, 0x625100d7#32, 0x5a406f7b#32,
  0xb8730b7d#32, 0x806264d1#32, 0xc851d425#32, 0xf040bb89#32, 0x5836b5cd#32, 0x6027da61#32, 0x28146a95#32, 0x10050539#32,
  0x7d1400ec#32, 0x45056f40#32, 0x0d36dfb4#32, 0x3527b018#32, 0x9d51be5c#32, 0xa540d1f0#32, 0xed736104#32, 0xd5620ea8#32,
  0x2cf9dff9#32, 0x14e8b055#32, 0x5cdb00a1#32, 0x64ca6f0d#32, 0xccbc6149#32, 0xf4ad0ee5#32, 0xbc9ebe11#32, 0x848fd1bd#32,
  0xe99ed468#32, 0xd18fbbc4#32, 0x99bc0b30#32, 0xa1ad649c#32, 0x09db6ad8#32, 0x31ca0574#32, 0x79f9b580#32, 0x41e8da2c#32,
  0xa3dbbe2a#32, 0x9bcad186#32, 0xd3f96172#32, 0xebe80ede#32, 0x439e009a#32, 0x7b8f6f36#32, 0x33bcdfc2#32, 0x0badb06e#32,
  0x66bcb5bb#32, 0x5eadda17#32, 0x169e6ae3#32, 0x2e8f054f#32, 0x86f90b0b#32, 0xbee864a7#32, 0xf6dbd453#32, 0xcecabbff#32,
  0x6ea2d55c#32, 0x56b3baf0#32, 0x1e800a04#32, 0x269165a8#32, 0x8ee76bec#32, 0xb6f60440#32, 0xfec5b4b4#32, 0xc6d4db18#32,
  0xabc5decd#32, 0x93d4b161#32, 0xdbe70195#32, 0xe3f66e39#32, 0x4b80607d#32, 0x73910fd1#32, 0x3ba2bf25#32, 0x03b3d089#32,
  0xe180b48f#32, 0xd991db23#32, 0x91a26bd7#32, 0xa9b3047b#32, 0x01c50a3f#32, 0x39d46593#32, 0x71e7d567#32, 0x49f6bacb#32,
  0x24e7bf1e#32, 0x1cf6d0b2#32, 0x54c56046#32, 0x6cd40fea#32, 0xc4a201ae#32, 0xfcb36e02#32, 0xb480def6#32, 0x8c91b15a#32,
  0x750a600b#32, 0x4d1b0fa7#32, 0x0528bf53#32, 0x3d39d0ff#32, 0x954fdebb#32, 0xad5eb117#32, 0xe56d01e3#32, 0xdd7c6e4f#32,
  0xb06d6b9a#32, 0x887c0436#32, 0xc04fb4c2#32, 0xf85edb6e#32, 0x5028d52a#32, 0x6839ba86#32, 0x200a0a72#32, 0x181b65de#32,
  0xfa2801d8#32, 0xc2396e74#32, 0x8a0ade80#32, 0xb21bb12c#32, 0x1a6dbf68#32, 0x227cd0c4#32, 0x6a4f6030#32, 0x525e0f9c#32,
  0x3f4f0a49#32, 0x075e65e5#32, 0x4f6dd511#32, 0x777cbabd#32, 0xdf0ab4f9#32, 0xe71bdb55#32, 0xaf286ba1#32, 0x9739040d#32,
  0x59f3bff2#32, 0x61e2d05e#32, 0x29d160aa#32, 0x11c00f06#32, 0xb9b60142#32, 0x81a76eee#32, 0xc994de1a#32, 0xf185b1b6#32,
  0x9c94b463#32, 0xa485dbcf#32, 0xecb66b3b#32, 0xd4a70497#32, 0x7cd10ad3#32, 0x44c0657f#32, 0x0cf3d58b#32, 0x34e2ba27#32,
  0xd6d1de21#32, 0xeec0b18d#32, 0xa6f30179#32, 0x9ee26ed5#32, 0x36946091#32, 0x0e850f3d#32, 0x46b6bfc9#32, 0x7ea7d065#32,
  0x13b6d5b0#32, 0x2ba7ba1c#32, 0x63940ae8#32, 0x5b856544#32, 0xf3f36b00#32, 0xcbe204ac#32, 0x83d1b458#32, 0xbbc0dbf4#32,
  0x425b0aa5#32, 0x7a4a6509#32, 0x3279d5fd#32, 0x0a68ba51#32, 0xa21eb415#32, 0x9a0fdbb9#32, 0xd23c6b4d#32, 0xea2d04e1#32,
  0x873c0134#32, 0xbf2d6e98#32, 0xf71ede6c#32, 0xcf0fb1c0#32, 0x6779bf84#32, 0x5f68d028#32, 0x175b60dc#32, 0x2f4a0f70#32,
  0xcd796b76#32, 0xf56804da#32, 0xbd5bb42e#32, 0x854adb82#32, 0x2d3cd5c6#32, 0x152dba6a#32, 0x5d1e0a9e#32, 0x650f6532#32,
  0x081e60e7#32, 0x300f0f4b#32, 0x783cbfbf#32, 0x402dd013#32, 0xe85bde57#32, 0xd04ab1fb#32, 0x9879010f#32, 0xa0686ea3#32]

def sctpCrcTableil8O72 : List (BitVec 32) := [
  0x00000000#32, 0xef306b19#32, 0xdb8ca0c3#32, 0x34bccbda#32, 0xb2f53777#32, 0x5dc55c6e#32, 0x697997b4#32, 0x8649fcad#32,
  0x6006181f#32, 0x8f367306#32, 0xbb8ab8dc#32, 0x54bad3c5#32, 0xd2f32f68#32, 0x3dc34471#32, 0x097f8fab#32, 0xe64fe4b2#32,
  0xc00c303e#32, 0x2f3c5b27#32, 0x1b8090fd#32, 0xf4b0fbe4#32, 0x72f90749#32, 0x9dc96c50#32, 0xa975a78a#32, 0x4645cc93#32,
  0xa00a2821#32, 0x4f3a4338#32, 0x7b8688e2#32, 0x94b6e3fb#32, 0x12ff1f56#32, 0xfdcf744f#32, 0xc973bf95#32, 0x2643d48c#32,
  0x85f4168d#32, 0x6ac47d94#32, 0x5e78b64e#32, 0xb148dd57#32, 0x370121fa#32, 0xd8314ae3#32, 0xec8d8139#32, 0x03bdea20#32,
  0xe5f20e92#32, 0x0ac2658b#32, 0x3e7eae51#32, 0xd14ec548#32, 0x570739e5#32, 0xb83752fc#32, 0x8c8b9926#32, 0x63bbf23f#32,
  0x45f826b3#32, 0xaac84daa#32, 0x9e748670#32, 0x7144ed69#32, 0xf70d11c4#32, 0x183d7add#32, 0x2c81b107#32, 0xc3b1da1e#32,
  0x25fe3eac#32, 0xcace55b5#32, 0xfe729e6f#32, 0x1142f576#32, 0x970b09db#32, 0x783b62c2#32, 0x4c87a918#32, 0xa3b7c201#32,
  0x0e045beb#32, 0xe13430f2#32, 0xd588fb28#32, 0x3ab89031#32, 0xbcf16c9c#32, 0x53c10785#32, 0x677dcc5f#32, 0x884da746#32,
  0x6e0243f4#32, 0x813228ed#32, 0xb58ee337#32, 0x5abe882e#32, 0xdcf77483#32, 0x33c71f9a#32, 0x077bd440#32, 0xe84bbf59#32,
  0xce086bd5#32, 0x213800cc#32, 0x1584cb16#32, 0xfab4a00f#32, 0x7cfd5ca2#32, 0x93cd37bb#32, 0xa771fc61#32, 0x48419778#32,
  0xae0e73ca#32, 0x413e18d3#32, 0x7582d309#32, 0x9ab2b810#32, 0x1cfb44bd#32, 0xf3cb2fa4#32, 0xc777e47e#32, 0x28478f67#32,
  0x8bf04d66#32, 0x64c0267f#32, 0x507ceda5#32, 0xbf4c86bc#32, 0x39057a11#32, 0xd6351108#32, 0xe289dad2#32, 0x0db9b1cb#32,
  0xebf65579#32, 0x04c63e60#32, 0x307af5ba#32, 0xdf4a9ea3#32, 0x5903620e#32, 0xb6330917#32, 0x828fc2cd#32, 0x6dbfa9d4#32,
  0x4bfc7d58#32, 0xa4cc1641#32, 0x9070dd9b#32, 0x7f40b682#32, 0xf9094a2f#32, 0x16392136#32, 0x2285eaec#32, 0xcdb581f5#32,
  0x2bfa6547#32, 0xc4ca0e5e#32, 0xf076c584#32, 0x1f46ae9d#32, 0x990f5230#32, 0x763f3929#32, 0x4283f2f3#32, 0xadb399ea#32,
  0x1c08b7d6#32, 0xf338dccf#32, 0xc7841715#32, 0x28b47c0c#32, 0xaefd80a1#32, 0x41cdebb8#32, 0x75712062#32, 0x9a414b7b#32,
  0x7c0eafc9#32, 0x933ec4d0#32, 0xa7820f0a#32, 0x48b26413#32, 0xcefb98be#32, 0x21cbf3a7#32, 0x1577387d#32, 0xfa475364#32,
  0xdc0487e8#32, 0x3334ecf1#32, 0x0788272b#32, 0xe8b84c32#32, 0x6ef1b09f#32, 0x81c1db86#32, 0xb57d105c#32, 0x5a4d7b45#32,
  0xbc029ff7#32, 0x5332f4ee#32, 0x678e3f34#32, 0x88be542d#32, 0x0ef7a880#32, 0xe1c7c399#32, 0xd57b0843#32, 0x3a4b635a#32,
  0x99fca15b#32, 0x76ccca42#32, 0x42700198#32, 0xad406a81#32, 0x2b09962c#32, 0xc439fd35#32, 0xf08536ef#32, 0x1fb55df6#32,
  0xf9fab944#32, 0x16cad25d#32, 0x22761987#32, 0xcd46729e#32, 0x4b0f8e33#32, 0xa43fe52a#32, 0x90832ef0#32, 0x7fb345e9#32,
  0x59f09165#32, 0xb6c0fa7c#32, 0x827c31a6#32, 0x6d4c5abf#32, 0xeb05a612#32, 0x0435cd0b#32, 0x308906d1#32, 0xdfb96dc8#32,
  0x39f6897a#32, 0xd6c6e263#32, 0xe27a29b9#32, 0x0d4a42a0#32, 0x8b03be0d#32, 0x6433d514#32, 0x508f1ece#32, 0xbfbf75d7#32,
  0x120cec3d#32, 0xfd3c8724#32, 0xc9804cfe#32, 0x26b027e7#32, 0xa0f9db4a#32, 0x4fc9b053#32, 0x7b757b89#32, 0x94451090#32,
  0x720af422#32, 0x9d3a9f3b#32, 0xa98654e1#32, 0x46b63ff8#32, 0xc0ffc355#32, 0x2fcfa84c#32, 0x1b736396#32, 0xf443088f#32,
  0xd200dc03#32, 0x3d30b71a#32, 0x098c7cc0#32, 0xe6bc17d9#32, 0x60f5eb74#32, 0x8fc5806d#32, 0xbb794bb7#32, 0x544920ae#32,
  0xb206c41c#32, 0x5d36af05#32, 0x698a64df#32, 0x86ba0fc6#32, 0x00f3f36b#32, 0xefc39872#32, 0xdb7f53a8#32, 0x344f38b1#32,
  0x97f8fab0#32, 0x78c891a9#32, 0x4c745a73#32, 0xa344316a#32, 0x250dcdc7#32, 0xca3da6de#32, 0xfe816d04#32, 0x11b1061d#32,
  0xf7fee2af#32, 0x18ce89b6#32, 0x2c72426c#32, 0xc3422975#32, 0x450bd5d8#32, 0xaa3bbec1#32, 0x9e87751b#32, 0x71b71e02#32,
  0x57f4ca8e#32, 0xb8c4a197#32, 0x8c786a4d#32, 0x63480154#32, 0xe501fdf9#32, 0x0a3196e0#32, 0x3e8d5d3a#32, 0xd1bd3623#32,
  0x37f2d291#32, 0xd8c2b988#32, 0xec7e7252#32, 0x034e194b#32, 0x8507e5e6#32, 0x6a378eff#32, 0x5e8b4525#32, 0xb1bb2e3c#32]

def sctpCrcTableil8O80 : List (BitVec 32) := [
  0x00000000#32, 0x68032cc8#32, 0xd0065990#32, 0xb8057558#32, 0xa5e0c5d1#32, 0xcde3e919#32, 0x75e69c41#32, 0x1de5b089#32,
  0x4e2dfd53#32, 0x262ed19b#32, 0x9e2ba4c3#32, 0xf628880b#32, 0xebcd3882#32, 0x83ce144a#32, 0x3bcb6112#32, 0x53c84dda#32,
  0x9c5bfaa6#32, 0xf458d66e#32, 0x4c5da336#32, 0x245e8ffe#32, 0x39bb3f77#32, 0x51b813bf#32, 0xe9bd66e7#32, 0x81be4a2f#32,
  0xd27607f5#32, 0xba752b3d#32, 0x02705e65#32, 0x6a7372ad#32, 0x7796c224#32, 0x1f95eeec#32, 0xa7909bb4#32, 0xcf93b77c#32,
  0x3d5b83bd#32, 0x5558af75#32, 0xed5dda2d#32, 0x855ef6e5#32, 0x98bb466c#32, 0xf0b86aa4#32, 0x48bd1ffc#32, 0x20be3334#32,
  0x73767eee#32, 0x1b755226#32, 0xa370277e#32, 0xcb730bb6#32, 0xd696bb3f#32, 0xbe9597f7#32, 0x0690e2af#32, 0x6e93ce67#32,
  0xa100791b#32, 0xc90355d3#32, 0x7106208b#32, 0x19050c43#32, 0x04e0bcca#32, 0x6ce39002#32, 0xd4e6e55a#32, 0xbce5c992#32,
  0xef2d8448#32, 0x872ea880#32, 0x3f2bddd8#32, 0x5728f110#32, 0x4acd4199#32, 0x22ce6d51#32, 0x9acb1809#32, 0xf2c834c1#32,
  0x7ab7077a#32, 0x12b42bb2#32, 0xaab15eea#32, 0xc2b27222#32, 0xdf57c2ab#32, 0xb754ee63#32, 0x0f519b3b#32, 0x6752b7f3#32,
  0x349afa29#32, 0x5c99d6e1#32, 0xe49ca3b9#32, 0x8c9f8f71#32, 0x917a3ff8#32, 0xf9791330#32, 0x417c6668#32, 0x297f4aa0#32,
  0xe6ecfddc#32, 0x8eefd114#32, 0x36eaa44c#32, 0x5ee98884#32, 0x430c380d#32, 0x2b0f14c5#32, 0x930a619d#32, 0xfb094d55#32,
  0xa8c1008f#32, 0xc0c22c47#32, 0x78c7591f#32, 0x10c475d7#32, 0x0d21c55e#32, 0x6522e996#32, 0xdd279cce#32, 0xb524b006#32,
  0x47ec84c7#32, 0x2fefa80f#32, 0x97eadd57#32, 0xffe9f19f#32, 0xe20c4116#32, 0x8a0f6dde#32, 0x320a1886#32, 0x5a09344e#32,
  0x09c17994#32, 0x61c2555c#32, 0xd9c72004#32, 0xb1c40ccc#32, 0xac21bc45#32, 0xc422908d#32, 0x7c27e5d5#32, 0x1424c91d#32,
  0xdbb77e61#32, 0xb3b452a9#32, 0x0bb127f1#32, 0x63b20b39#32, 0x7e57bbb0#32, 0x16549778#32, 0xae51e220#32, 0xc652cee8#32,
  0x959a8332#32, 0xfd99affa#32, 0x459cdaa2#32, 0x2d9ff66a#32, 0x307a46e3#32, 0x58796a2b#32, 0xe07c1f73#32, 0x887f33bb#32,
  0xf56e0ef4#32, 0x9d6d223c#32, 0x25685764#32, 0x4d6b7bac#32, 0x508ecb25#32, 0x388de7ed#32, 0x808892b5#32, 0xe88bbe7d#32,
  0xbb43f3a7#32, 0xd340df6f#32, 0x6b45aa37#32, 0x034686ff#32, 0x1ea33676#32, 0x76a01abe#32, 0xcea56fe6#32, 0xa6a6432e#32,
  0x6935f452#32, 0x0136d89a#32, 0xb933adc2#32, 0xd130810a#32, 0xccd53183#32, 0xa4d61d4b#32, 0x1cd36813#32, 0x74d044db#32,
  0x27180901#32, 0x4f1b25c9#32, 0xf71e5091#32, 0x9f1d7c59#32, 0x82f8ccd0#32, 0xeafbe018#32, 0x52fe9540#32, 0x3afdb988#32,
  0xc8358d49#32, 0xa036a181#32, 0x1833d4d9#32, 0x7030f811#32, 0x6dd54898#32, 0x05d66450#32, 0xbdd31108#32, 0xd5d03dc0#32,
  0x8618701a#32, 0xee1b5cd2#32, 0x561e298a#32, 0x3e1d0542#32, 0x23f8b5cb#32, 0x4bfb9903#32, 0xf3feec5b#32, 0x9bfdc093#32,
  0x546e77ef#32, 0x3c6d5b27#32, 0x84682e7f#32, 0xec6b02b7#32, 0xf18eb23e#32, 0x998d9ef6#32, 0x2188ebae#32, 0x498bc766#32,
  0x1a438abc#32, 0x7240a674#32, 0xca45d32c#32, 0xa246ffe4#32, 0xbfa34f6d#32, 0xd7a063a5#32, 0x6fa516fd#32, 0x07a63a35#32,
  0x8fd9098e#32, 0xe7da2546#32, 0x5fdf501e#32, 0x37dc7cd6#32, 0x2a39cc5f#32, 0x423ae097#32, 0xfa3f95cf#32, 0x923cb907#32,
  0xc1f4f4dd#32, 0xa9f7d815#32, 0x11f2ad4d#32, 0x79f18185#32, 0x6414310c#32, 0x0c171dc4#32, 0xb412689c#32, 0xdc114454#32,
  0x1382f328#32, 0x7b81dfe0#32, 0xc384aab8#32, 0xab878670#32, 0xb66236f9#32, 0xde611a31#32, 0x66646f69#32, 0x0e6743a1#32,
  0x5daf0e7b#32, 0x35ac22b3#32, 0x8da957eb#32, 0xe5aa7b23#32, 0xf84fcbaa#32, 0x904ce762#32, 0x2849923a#32, 0x404abef2#32,
  0xb2828a33#32, 0xda81a6fb#32, 0x6284d3a3#32, 0x0a87ff6b#32, 0x17624fe2#32, 0x7f61632a#32, 0xc7641672#32, 0xaf673aba#32,
  0xfcaf7760#32, 0x94ac5ba8#32, 0x2ca92ef0#32, 0x44aa0238#32, 0x594fb2b1#32, 0x314c9e79#32, 0x8949eb21#32, 0xe14ac7e9#32,
  0x2ed97095#32, 0x46da5c5d#32, 0xfedf2905#32, 0x96dc05cd#32, 0x8b39b544#32, 0xe33a998c#32, 0x5b3fecd4#32, 0x333cc01c#32,
  0x60f48dc6#32, 0x08f7a10e#32, 0xb0f2d456#32, 0xd8f1f89e#32, 0xc5144817#32, 0xad1764df#32, 0x15121187#32, 0x7d113d4f#32]

def sctpCrcTableil8O88 : List (BitVec 32) := [
  0x00000000#32, 0x493c7d27#32, 0x9278fa4e#32, 0xdb448769#32, 0x211d826d#32, 0x6821ff4a#32, 0xb3657823#32, 0xfa590504#32,
  0x423b04da#32, 0x0b0779fd#32, 0xd043fe94#32, 0x997f83b3#32, 0x632686b7#32, 0x2a1afb90#32, 0xf15e7cf9#32, 0xb86201de#32,
  0x847609b4#32, 0xcd4a7493#32, 0x160ef3fa#32, 0x5f328edd#32, 0xa56b8bd9#32, 0xec57f6fe#32, 0x37137197#32, 0x7e2f0cb0#32,
  0xc64d0d6e#32, 0x8f717049#32, 0x5435f720#32, 0x1d098a07#32, 0xe7508f03#32, 0xae6cf224#32, 0x7528754d#32, 0x3c14086a#32,
  0x0d006599#32, 0x443c18be#32, 0x9f789fd7#32, 0xd644e2f0#32, 0x2c1de7f4#32, 0x65219ad3#32, 0xbe651dba#32, 0xf759609d#32,
  0x4f3b6143#32, 0x06071c64#32, 0xdd439b0d#32, 0x947fe62a#32, 0x6e26e32e#32, 0x271a9e09#32, 0xfc5e1960#32, 0xb5626447#32,
  0x89766c2d#32, 0xc04a110a#32, 0x1b0e9663#32, 0x5232eb44#32, 0xa86bee40#32, 0xe1579367#32, 0x3a13140e#32, 0x732f6929#32,
  0xcb4d68f7#32, 0x827115d0#32, 0x593592b9#32, 0x1009ef9e#32, 0xea50ea9a#32, 0xa36c97bd#32, 0x782810d4#32, 0x31146df3#32,
  0x1a00cb32#32, 0x533cb615#32, 0x8878317c#32, 0xc1444c5b#32, 0x3b1d495f#32, 0x72213478#32, 0xa965b311#32, 0xe059ce36#32,
  0x583bcfe8#32, 0x1107b2cf#32, 0xca4335a6#32, 0x837f4881#32, 0x79264d85#32, 0x301a30a2#32, 0xeb5eb7cb#32, 0xa262caec#32,
  0x9e76c286#32, 0xd74abfa1#32, 0x0c0e38c8#32, 0x453245ef#32, 0xbf6b40eb#32, 0xf6573dcc#32, 0x2d13baa5#32, 0x642fc782#32,
  0xdc4dc65c#32, 0x9571bb7b#32, 0x4e353c12#32, 0x07094135#32, 0xfd504431#32, 0xb46c3916#32, 0x6f28be7f#32, 0x2614c358#32,
  0x1700aeab#32, 0x5e3cd38c#32, 0x857854e5#32, 0xcc4429c2#32, 0x361d2cc6#32, 0x7f2151e1#32, 0xa465d688#32, 0xed59abaf#32,
  0x553baa71#32, 0x1c07d756#32, 0xc743503f#32, 0x8e7f2d18#32, 0x7426281c#32, 0x3d1a553b#32, 0xe65ed252#32, 0xaf62af75#32,
  0x9376a71f#32, 0xda4ada38#32, 0x010e5d51#32, 0x48322076#32, 0xb26b2572#32, 0xfb575855#32, 0x2013df3c#32, 0x692fa21b#32,
  0xd14da3c5#32, 0x9871dee2#32, 0x4335598b#32, 0x0a0924ac#32, 0xf05021a8#32, 0xb96c5c8f#32, 0x6228dbe6#32, 0x2b14a6c1#32,
  0x34019664#32, 0x7d3deb43#32, 0xa6796c2a#32, 0xef45110d#32, 0x151c1409#32, 0x5c20692e#32, 0x8764ee47#32, 0xce589360#32,
  0x763a92be#32, 0x3f06ef99#32, 0xe44268f0#32, 0xad7e15d7#32, 0x572710d3#32, 0x1e1b6df4#32, 0xc55fea9d#32, 0x8c6397ba#32,
  0xb0779fd0#32, 0xf94be2f7#32, 0x220f659e#32, 0x6b3318b9#32, 0x916a1dbd#32, 0xd856609a#32, 0x0312e7f3#32, 0x4a2e9ad4#32,
  0xf24c9b0a#32, 0xbb70e62d#32, 0x60346144#32, 0x29081c63#32, 0xd3511967#32, 0x9a6d6440#32, 0x4129e329#32, 0x08159e0e#32,
  0x3901f3fd#32, 0x703d8eda#32, 0xab7909b3#32, 0xe2457494#32, 0x181c7190#32, 0x51200cb7#32, 0x8a648bde#32, 0xc358f6f9#32,
  0x7b3af727#32, 0x32068a00#32, 0xe9420d69#32, 0xa07e704e#32, 0x5a27754a#32, 0x131b086d#32, 0xc85f8f04#32, 0x8163f223#32,
  0xbd77fa49#32, 0xf44b876e#32, 0x2f0f0007#32, 0x66337d20#32, 0x9c6a7824#32, 0xd5560503#32, 0x0e12826a#32, 0x472eff4d#32,
  0xff4cfe93#32, 0xb67083b4#32, 0x6d3404dd#32, 0x240879fa#32, 0xde517cfe#32, 0x976d01d9#32, 0x4c2986b0#32, 0x0515fb97#32,
  0x2e015d56#32, 0x673d2071#32, 0xbc79a718#32, 0xf545da3f#32, 0x0f1cdf3b#32, 0x4620a21c#32, 0x9d642575#32, 0xd4585852#32,
  0x6c3a598c#32, 0x250624ab#32, 0xfe42a3c2#32, 0xb77edee5#32, 0x4d27dbe1#32, 0x041ba6c6#32, 0xdf5f21af#32, 0x96635c88#32,
  0xaa7754e2#32, 0xe34b29c5#32, 0x380faeac#32, 0x7133d38b#32, 0x8b6ad68f#32, 0xc256aba8#32, 0x19122cc1#32, 0x502e51e6#32,
  0xe84c5038#32, 0xa1702d1f#32, 0x7a34aa76#32, 0x3308d751#32, 0xc951d255#32, 0x806daf72#32, 0x5b29281b#32, 0x1215553c#32,
  0x230138cf#32, 0x6a3d45e8#32, 0xb179c281#32, 0xf845bfa6#32, 0x021cbaa2#32, 0x4b20c785#32, 0x906440ec#32, 0xd9583dcb#32,
  0x613a3c15#32, 0x28064132#32, 0xf342c65b#32, 0xba7ebb7c#32, 0x4027be78#32, 0x091bc35f#32, 0xd25f4436#32, 0x9b633911#32,
  0xa777317b#32, 0xee4b4c5c#32, 0x350fcb35#32, 0x7c33b612#32, 0x866ab316#32, 0xcf56ce31#32, 0x14124958#32, 0x5d2e347f#32,
  0xe54c35a1#32, 0xac704886#32, 0x7734cfef#32, 0x3e08b2c8#32, 0xc451b7cc#32, 0x8d6dcaeb#32, 0x56294d82#32, 0x1f1530a5#32]

/-- The tables that take eight bytes at once, the last byte's first. -/
def slices : List (List (BitVec 32)) :=
  [sctpCrcTableil8O32, sctpCrcTableil8O40, sctpCrcTableil8O48, sctpCrcTableil8O56,
    sctpCrcTableil8O64, sctpCrcTableil8O72, sctpCrcTableil8O80, sctpCrcTableil8O88]

/-- What every byte leaves after `n` places. -/
def left (n : Nat) : List (BitVec 32) :=
  (List.range 256).map fun i => shifts castagnoli n (BitVec.ofNat 32 i)

def powers : List (BitVec 32) := [128#32, 64#32, 32#32, 16#32, 8#32, 4#32, 2#32, 1#32]

/-- All the tables at once. -/
theorem tables_eq : crc32Table = sctpCrcTableil8O32 ∧
    span powers = (List.range 256).map (BitVec.ofNat 32) ∧
    ∀ k < 8, slices.getD k [] = span (powers.map (shifts castagnoli (8 * (k + 1)))) := by
  decide +kernel

theorem crc32Table_eq : crc32Table = sctpCrcTableil8O32 := tables_eq.1

theorem span_powers : span powers = (List.range 256).map (BitVec.ofNat 32) := tables_eq.2.1

theorem slices_eq : ∀ k < 8,
    slices.getD k [] = span (powers.map (shifts castagnoli (8 * (k + 1)))) := tables_eq.2.2

/-- The table `k` has taken every byte down `k + 1` bytes. -/
theorem slice_eq {k : Nat} (hk : k < 8) : slices.getD k [] = left (8 * (k + 1)) := by
  rw [slices_eq k hk, span_shifts, span_powers, List.map_map]
  rfl

theorem getD_left (n : Nat) (x : BitVec 32) :
    (left n).getD (x &&& 255#32).toNat 0#32 = shifts castagnoli n (x &&& 255#32) := by
  have hlt : (x &&& 255#32).toNat < 256 := by
    rw [BitVec.toNat_and]
    exact Nat.lt_of_le_of_lt Nat.and_le_right (by decide)
  rw [left, List.getD_eq_getElem?_getD, List.getElem?_map, List.getElem?_range hlt]
  exact congrArg (shifts castagnoli n) (by rw [BitVec.ofNat_toNat, BitVec.setWidth_eq])

/-- A byte of the register, looked up in the table `k`. -/
theorem getD_slice {k : Nat} (hk : k < 8) (x : BitVec 32) :
    (slices.getD k []).getD (x &&& 255#32).toNat 0#32 =
      shifts castagnoli (8 * (k + 1)) (x &&& 255#32) := by
  rw [slice_eq hk, getD_left]

end Hammer2.Libkern
