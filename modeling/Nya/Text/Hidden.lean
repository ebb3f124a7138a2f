/-!
# Characters without a look of their own

The characters that a reader cannot tell by looking: controls, format characters, characters for
private use or not assigned, separators other than the space, characters that Unicode calls
Default_Ignorable_Code_Point, such as the Hangul fillers, and the combining marks that it calls
Grapheme_Extend, which join the character before them.
-/

namespace Nya.Text

/-- The characters without a look of their own whose neighbours have one. -/
def hiddenSingles : Array Nat :=
  #[0xad, 0x38b, 0x38d, 0x3a2, 0x530, 0x5bf, 0x61c, 0x670, 0x711, 0x83f, 0x85f, 0x93a, 0x93c, 0x94d,
    0x981, 0x984, 0x9a9, 0x9b1, 0x9be, 0x9cd, 0x9de, 0xa04, 0xa29, 0xa31, 0xa34, 0xa37, 0xa5d,
    0xa75, 0xa84, 0xa8e, 0xa92, 0xaa9, 0xab1, 0xab4, 0xaca, 0xb04, 0xb29, 0xb31, 0xb34, 0xb5e,
    0xb84, 0xb91, 0xb9b, 0xb9d, 0xbc0, 0xbc9, 0xc04, 0xc0d, 0xc11, 0xc29, 0xc5b, 0xc81, 0xc8d,
    0xc91, 0xca9, 0xcb4, 0xcc2, 0xcdf, 0xcf0, 0xd0d, 0xd11, 0xd3e, 0xd49, 0xd4d, 0xd57, 0xd84,
    0xdb2, 0xdbc, 0xe31, 0xe83, 0xe85, 0xe8b, 0xea4, 0xea6, 0xeb1, 0xec5, 0xf35, 0xf37, 0xf39,
    0xf48, 0xfc6, 0xfcd, 0x1082, 0x108d, 0x109d, 0x10c6, 0x1249, 0x1257, 0x1259, 0x1289, 0x12b1,
    0x12bf, 0x12c1, 0x12d7, 0x1311, 0x1680, 0x176d, 0x17c6, 0x18a9, 0x1932, 0x1a56, 0x1a62, 0x1b4d,
    0x1be6, 0x1bed, 0x1ced, 0x1cf4, 0x1f58, 0x1f5a, 0x1f5c, 0x1f5e, 0x1fb5, 0x1fc5, 0x1fdc, 0x1ff5,
    0x208f, 0x2d26, 0x2da7, 0x2daf, 0x2db7, 0x2dbf, 0x2dc7, 0x2dcf, 0x2dd7, 0x2e9a, 0x3000, 0x3040,
    0x3130, 0x3164, 0x318f, 0x321f, 0xa802, 0xa806, 0xa80b, 0xa8ff, 0xa9b3, 0xa9c0, 0xa9ce, 0xa9e5,
    0xa9ff, 0xaa43, 0xaa4c, 0xaa7c, 0xaab0, 0xaac1, 0xab27, 0xab2f, 0xabe5, 0xabe8, 0xfb1e, 0xfb37,
    0xfb3d, 0xfb3f, 0xfb42, 0xfb45, 0xfe53, 0xfe67, 0xfe75, 0xffa0, 0xffe7, 0x1000c, 0x10027,
    0x1003b, 0x1003e, 0x1018f, 0x1039e, 0x1057b, 0x1058b, 0x10593, 0x10596, 0x105a2, 0x105b2,
    0x105ba, 0x10786, 0x107b1, 0x10809, 0x10836, 0x10856, 0x108f3, 0x10a14, 0x10a18, 0x10e7f,
    0x11001, 0x11070, 0x110bd, 0x11173, 0x111c0, 0x111cf, 0x111e0, 0x11212, 0x1123e, 0x11287,
    0x11289, 0x1128e, 0x1129e, 0x112df, 0x11304, 0x11329, 0x11331, 0x11334, 0x1133e, 0x11340,
    0x1138a, 0x1138f, 0x113b6, 0x113b8, 0x113cb, 0x113d2, 0x113d6, 0x11446, 0x1145c, 0x1145e,
    0x114b0, 0x114ba, 0x114bd, 0x115af, 0x1163d, 0x116ab, 0x116ad, 0x1171f, 0x11914, 0x11917,
    0x11930, 0x11936, 0x11943, 0x119e0, 0x11b66, 0x11c09, 0x11c3f, 0x11d07, 0x11d0a, 0x11d66,
    0x11d69, 0x11d95, 0x11d97, 0x11f11, 0x1246f, 0x16a5f, 0x16abf, 0x16b5a, 0x16b62, 0x1aff4,
    0x1affc, 0x1afff, 0x1d455, 0x1d49d, 0x1d4ad, 0x1d4ba, 0x1d4bc, 0x1d4c4, 0x1d506, 0x1d515,
    0x1d51d, 0x1d53a, 0x1d53f, 0x1d545, 0x1d551, 0x1da75, 0x1da84, 0x1e6df, 0x1e6e3, 0x1e6e6,
    0x1e7e7, 0x1e7ec, 0x1e7ef, 0x1e7ff, 0x1ee04, 0x1ee20, 0x1ee23, 0x1ee28, 0x1ee33, 0x1ee38,
    0x1ee3a, 0x1ee48, 0x1ee4a, 0x1ee4c, 0x1ee50, 0x1ee53, 0x1ee58, 0x1ee5a, 0x1ee5c, 0x1ee5e,
    0x1ee60, 0x1ee63, 0x1ee6b, 0x1ee73, 0x1ee78, 0x1ee7d, 0x1ee7f, 0x1ee8a, 0x1eea4, 0x1eeaa,
    0x1f0c0, 0x1f0d0, 0x1fac7, 0x1fb93]

/-- The longer ranges of characters that have no look of their own, by their first and last. -/
def hiddenRanges : Array (Nat × Nat) :=
  #[(0x0, 0x1f), (0x7f, 0xa0), (0x300, 0x36f), (0x378, 0x379), (0x380, 0x383), (0x483, 0x489),
    (0x557, 0x558), (0x58b, 0x58c), (0x590, 0x5bd), (0x5c1, 0x5c2), (0x5c4, 0x5c5), (0x5c7, 0x5cf),
    (0x5eb, 0x5ee), (0x5f5, 0x605), (0x610, 0x61a), (0x64b, 0x65f), (0x6d6, 0x6dd), (0x6df, 0x6e4),
    (0x6e7, 0x6e8), (0x6ea, 0x6ed), (0x70e, 0x70f), (0x730, 0x74c), (0x7a6, 0x7b0), (0x7b2, 0x7bf),
    (0x7eb, 0x7f3), (0x7fb, 0x7fd), (0x816, 0x819), (0x81b, 0x823), (0x825, 0x827), (0x829, 0x82f),
    (0x859, 0x85d), (0x86b, 0x86f), (0x890, 0x89f), (0x8ca, 0x902), (0x941, 0x948), (0x951, 0x957),
    (0x962, 0x963), (0x98d, 0x98e), (0x991, 0x992), (0x9b3, 0x9b5), (0x9ba, 0x9bc), (0x9c1, 0x9c6),
    (0x9c9, 0x9ca), (0x9cf, 0x9db), (0x9e2, 0x9e5), (0x9fe, 0xa02), (0xa0b, 0xa0e), (0xa11, 0xa12),
    (0xa3a, 0xa3d), (0xa41, 0xa58), (0xa5f, 0xa65), (0xa70, 0xa71), (0xa77, 0xa82), (0xaba, 0xabc),
    (0xac1, 0xac8), (0xacd, 0xacf), (0xad1, 0xadf), (0xae2, 0xae5), (0xaf2, 0xaf8), (0xafa, 0xb01),
    (0xb0d, 0xb0e), (0xb11, 0xb12), (0xb3a, 0xb3c), (0xb3e, 0xb3f), (0xb41, 0xb46), (0xb49, 0xb4a),
    (0xb4d, 0xb5b), (0xb62, 0xb65), (0xb78, 0xb82), (0xb8b, 0xb8d), (0xb96, 0xb98), (0xba0, 0xba2),
    (0xba5, 0xba7), (0xbab, 0xbad), (0xbba, 0xbbe), (0xbc3, 0xbc5), (0xbcd, 0xbcf), (0xbd1, 0xbe5),
    (0xbfb, 0xc00), (0xc3a, 0xc3c), (0xc3e, 0xc40), (0xc45, 0xc57), (0xc5e, 0xc5f), (0xc62, 0xc65),
    (0xc70, 0xc76), (0xcba, 0xcbc), (0xcbf, 0xcc0), (0xcc5, 0xcdb), (0xce2, 0xce5), (0xcf4, 0xd01),
    (0xd3b, 0xd3c), (0xd41, 0xd45), (0xd50, 0xd53), (0xd62, 0xd65), (0xd80, 0xd81), (0xd97, 0xd99),
    (0xdbe, 0xdbf), (0xdc7, 0xdcf), (0xdd2, 0xdd7), (0xddf, 0xde5), (0xdf0, 0xdf1), (0xdf5, 0xe00),
    (0xe34, 0xe3e), (0xe47, 0xe4e), (0xe5c, 0xe80), (0xeb4, 0xebc), (0xebe, 0xebf), (0xec7, 0xecf),
    (0xeda, 0xedb), (0xee0, 0xeff), (0xf18, 0xf19), (0xf6d, 0xf7e), (0xf80, 0xf84), (0xf86, 0xf87),
    (0xf8d, 0xfbd), (0xfdb, 0xfff), (0x102d, 0x1030), (0x1032, 0x1037), (0x1039, 0x103a),
    (0x103d, 0x103e), (0x1058, 0x1059), (0x105e, 0x1060), (0x1071, 0x1074), (0x1085, 0x1086),
    (0x10c8, 0x10cc), (0x10ce, 0x10cf), (0x115f, 0x1160), (0x124e, 0x124f), (0x125e, 0x125f),
    (0x128e, 0x128f), (0x12b6, 0x12b7), (0x12c6, 0x12c7), (0x1316, 0x1317), (0x135b, 0x135f),
    (0x137d, 0x137f), (0x139a, 0x139f), (0x13f6, 0x13f7), (0x13fe, 0x13ff), (0x169d, 0x169f),
    (0x16f9, 0x16ff), (0x1712, 0x171e), (0x1732, 0x1734), (0x1737, 0x173f), (0x1752, 0x175f),
    (0x1771, 0x177f), (0x17b4, 0x17b5), (0x17b7, 0x17bd), (0x17c9, 0x17d3), (0x17dd, 0x17df),
    (0x17ea, 0x17ef), (0x17fa, 0x17ff), (0x180b, 0x180f), (0x181a, 0x181f), (0x1879, 0x187f),
    (0x1885, 0x1886), (0x18ab, 0x18af), (0x18f6, 0x18ff), (0x191f, 0x1922), (0x1927, 0x1928),
    (0x192c, 0x192f), (0x1939, 0x193f), (0x1941, 0x1943), (0x196e, 0x196f), (0x1975, 0x197f),
    (0x19ac, 0x19af), (0x19ca, 0x19cf), (0x19db, 0x19dd), (0x1a17, 0x1a18), (0x1a1b, 0x1a1d),
    (0x1a58, 0x1a60), (0x1a65, 0x1a6c), (0x1a73, 0x1a7f), (0x1a8a, 0x1a8f), (0x1a9a, 0x1a9f),
    (0x1aae, 0x1b03), (0x1b34, 0x1b3d), (0x1b42, 0x1b44), (0x1b6b, 0x1b73), (0x1b80, 0x1b81),
    (0x1ba2, 0x1ba5), (0x1ba8, 0x1bad), (0x1be8, 0x1be9), (0x1bef, 0x1bfb), (0x1c2c, 0x1c33),
    (0x1c36, 0x1c3a), (0x1c4a, 0x1c4c), (0x1c8b, 0x1c8f), (0x1cbb, 0x1cbc), (0x1cc8, 0x1cd2),
    (0x1cd4, 0x1ce0), (0x1ce2, 0x1ce8), (0x1cf8, 0x1cf9), (0x1cfb, 0x1cff), (0x1dc0, 0x1dff),
    (0x1f16, 0x1f17), (0x1f1e, 0x1f1f), (0x1f46, 0x1f47), (0x1f4e, 0x1f4f), (0x1f7e, 0x1f7f),
    (0x1fd4, 0x1fd5), (0x1ff0, 0x1ff1), (0x1fff, 0x200f), (0x2028, 0x202f), (0x205f, 0x206f),
    (0x2072, 0x2073), (0x209d, 0x209f), (0x20c2, 0x20ff), (0x218c, 0x218f), (0x242a, 0x243f),
    (0x244b, 0x245f), (0x2b74, 0x2b75), (0x2cef, 0x2cf1), (0x2cf4, 0x2cf8), (0x2d28, 0x2d2c),
    (0x2d2e, 0x2d2f), (0x2d68, 0x2d6e), (0x2d71, 0x2d7f), (0x2d97, 0x2d9f), (0x2ddf, 0x2dff),
    (0x2e5e, 0x2e7f), (0x2ef4, 0x2eff), (0x2fd6, 0x2fef), (0x302a, 0x302f), (0x3097, 0x309a),
    (0x3100, 0x3104), (0x31e6, 0x31ee), (0xa48d, 0xa48f), (0xa4c7, 0xa4cf), (0xa62c, 0xa63f),
    (0xa66f, 0xa672), (0xa674, 0xa67d), (0xa69e, 0xa69f), (0xa6f0, 0xa6f1), (0xa6f8, 0xa6ff),
    (0xa7dd, 0xa7f0), (0xa825, 0xa826), (0xa82c, 0xa82f), (0xa83a, 0xa83f), (0xa878, 0xa87f),
    (0xa8c4, 0xa8cd), (0xa8da, 0xa8f1), (0xa926, 0xa92d), (0xa947, 0xa951), (0xa953, 0xa95e),
    (0xa97d, 0xa982), (0xa9b6, 0xa9b9), (0xa9bc, 0xa9bd), (0xa9da, 0xa9dd), (0xaa29, 0xaa2e),
    (0xaa31, 0xaa32), (0xaa35, 0xaa3f), (0xaa4e, 0xaa4f), (0xaa5a, 0xaa5b), (0xaab2, 0xaab4),
    (0xaab7, 0xaab8), (0xaabe, 0xaabf), (0xaac3, 0xaada), (0xaaec, 0xaaed), (0xaaf6, 0xab00),
    (0xab07, 0xab08), (0xab0f, 0xab10), (0xab17, 0xab1f), (0xab6c, 0xab6f), (0xabed, 0xabef),
    (0xabfa, 0xabff), (0xd7a4, 0xd7af), (0xd7c7, 0xd7ca), (0xd7fc, 0xf8ff), (0xfa6e, 0xfa6f),
    (0xfada, 0xfaff), (0xfb07, 0xfb12), (0xfb18, 0xfb1c), (0xfdd0, 0xfdef), (0xfe00, 0xfe0f),
    (0xfe1a, 0xfe2f), (0xfe6c, 0xfe6f), (0xfefd, 0xff00), (0xffbf, 0xffc1), (0xffc8, 0xffc9),
    (0xffd0, 0xffd1), (0xffd8, 0xffd9), (0xffdd, 0xffdf), (0xffef, 0xfffb), (0xfffe, 0xffff),
    (0x1004e, 0x1004f), (0x1005e, 0x1007f), (0x100fb, 0x100ff), (0x10103, 0x10106),
    (0x10134, 0x10136), (0x1019d, 0x1019f), (0x101a1, 0x101cf), (0x101fd, 0x1027f),
    (0x1029d, 0x1029f), (0x102d1, 0x102e0), (0x102fc, 0x102ff), (0x10324, 0x1032c),
    (0x1034b, 0x1034f), (0x10376, 0x1037f), (0x103c4, 0x103c7), (0x103d6, 0x103ff),
    (0x1049e, 0x1049f), (0x104aa, 0x104af), (0x104d4, 0x104d7), (0x104fc, 0x104ff),
    (0x10528, 0x1052f), (0x10564, 0x1056e), (0x105bd, 0x105bf), (0x105f4, 0x105ff),
    (0x10737, 0x1073f), (0x10756, 0x1075f), (0x10768, 0x1077f), (0x107bb, 0x107ff),
    (0x10806, 0x10807), (0x10839, 0x1083b), (0x1083d, 0x1083e), (0x1089f, 0x108a6),
    (0x108b0, 0x108df), (0x108f6, 0x108fa), (0x1091c, 0x1091e), (0x1093a, 0x1093e),
    (0x1095a, 0x1097f), (0x109b8, 0x109bb), (0x109d0, 0x109d1), (0x10a01, 0x10a0f),
    (0x10a36, 0x10a3f), (0x10a49, 0x10a4f), (0x10a59, 0x10a5f), (0x10aa0, 0x10abf),
    (0x10ae5, 0x10aea), (0x10af7, 0x10aff), (0x10b36, 0x10b38), (0x10b56, 0x10b57),
    (0x10b73, 0x10b77), (0x10b92, 0x10b98), (0x10b9d, 0x10ba8), (0x10bb0, 0x10bff),
    (0x10c49, 0x10c7f), (0x10cb3, 0x10cbf), (0x10cf3, 0x10cf9), (0x10d24, 0x10d2f),
    (0x10d3a, 0x10d3f), (0x10d66, 0x10d6d), (0x10d86, 0x10d8d), (0x10d90, 0x10e5f),
    (0x10eaa, 0x10eac), (0x10eae, 0x10eaf), (0x10eb2, 0x10ec1), (0x10ec8, 0x10ecf),
    (0x10ed9, 0x10eff), (0x10f28, 0x10f2f), (0x10f46, 0x10f50), (0x10f5a, 0x10f6f),
    (0x10f82, 0x10f85), (0x10f8a, 0x10faf), (0x10fcc, 0x10fdf), (0x10ff7, 0x10fff),
    (0x11038, 0x11046), (0x1104e, 0x11051), (0x11073, 0x11074), (0x11076, 0x11081),
    (0x110b3, 0x110b6), (0x110b9, 0x110ba), (0x110c2, 0x110cf), (0x110e9, 0x110ef),
    (0x110fa, 0x11102), (0x11127, 0x1112b), (0x1112d, 0x11135), (0x11148, 0x1114f),
    (0x11177, 0x11181), (0x111b6, 0x111be), (0x111c9, 0x111cc), (0x111f5, 0x111ff),
    (0x1122f, 0x11231), (0x11234, 0x11237), (0x11241, 0x1127f), (0x112aa, 0x112af),
    (0x112e3, 0x112ef), (0x112fa, 0x11301), (0x1130d, 0x1130e), (0x11311, 0x11312),
    (0x1133a, 0x1133c), (0x11345, 0x11346), (0x11349, 0x1134a), (0x1134d, 0x1134f),
    (0x11351, 0x1135c), (0x11364, 0x1137f), (0x1138c, 0x1138d), (0x113bb, 0x113c9),
    (0x113ce, 0x113d0), (0x113d9, 0x113ff), (0x11438, 0x1143f), (0x11442, 0x11444),
    (0x11462, 0x1147f), (0x114b3, 0x114b8), (0x114bf, 0x114c0), (0x114c2, 0x114c3),
    (0x114c8, 0x114cf), (0x114da, 0x1157f), (0x115b2, 0x115b7), (0x115bc, 0x115bd),
    (0x115bf, 0x115c0), (0x115dc, 0x115ff), (0x11633, 0x1163a), (0x1163f, 0x11640),
    (0x11645, 0x1164f), (0x1165a, 0x1165f), (0x1166d, 0x1167f), (0x116b0, 0x116b7),
    (0x116ba, 0x116bf), (0x116ca, 0x116cf), (0x116e4, 0x116ff), (0x1171b, 0x1171d),
    (0x11722, 0x11725), (0x11727, 0x1172f), (0x11747, 0x117ff), (0x1182f, 0x11837),
    (0x11839, 0x1183a), (0x1183c, 0x1189f), (0x118f3, 0x118fe), (0x11907, 0x11908),
    (0x1190a, 0x1190b), (0x11939, 0x1193e), (0x11947, 0x1194f), (0x1195a, 0x1199f),
    (0x119a8, 0x119a9), (0x119d4, 0x119db), (0x119e5, 0x119ff), (0x11a01, 0x11a0a),
    (0x11a33, 0x11a38), (0x11a3b, 0x11a3e), (0x11a47, 0x11a4f), (0x11a51, 0x11a56),
    (0x11a59, 0x11a5b), (0x11a8a, 0x11a96), (0x11a98, 0x11a99), (0x11aa3, 0x11aaf),
    (0x11af9, 0x11aff), (0x11b0a, 0x11b60), (0x11b62, 0x11b64), (0x11b68, 0x11bbf),
    (0x11be2, 0x11bef), (0x11bfa, 0x11bff), (0x11c30, 0x11c3d), (0x11c46, 0x11c4f),
    (0x11c6d, 0x11c6f), (0x11c90, 0x11ca8), (0x11caa, 0x11cb0), (0x11cb2, 0x11cb3),
    (0x11cb5, 0x11cff), (0x11d31, 0x11d45), (0x11d47, 0x11d4f), (0x11d5a, 0x11d5f),
    (0x11d8f, 0x11d92), (0x11d99, 0x11d9f), (0x11daa, 0x11daf), (0x11ddc, 0x11ddf),
    (0x11dea, 0x11edf), (0x11ef3, 0x11ef4), (0x11ef9, 0x11f01), (0x11f36, 0x11f3d),
    (0x11f40, 0x11f42), (0x11f5a, 0x11faf), (0x11fb1, 0x11fbf), (0x11ff2, 0x11ffe),
    (0x1239a, 0x123ff), (0x12475, 0x1247f), (0x12544, 0x12f8f), (0x12ff3, 0x12fff),
    (0x13430, 0x13440), (0x13447, 0x1345f), (0x143fb, 0x143ff), (0x14647, 0x160ff),
    (0x1611e, 0x16129), (0x1612d, 0x1612f), (0x1613a, 0x167ff), (0x16a39, 0x16a3f),
    (0x16a6a, 0x16a6d), (0x16aca, 0x16acf), (0x16aee, 0x16af4), (0x16af6, 0x16aff),
    (0x16b30, 0x16b36), (0x16b46, 0x16b4f), (0x16b78, 0x16b7c), (0x16b90, 0x16d3f),
    (0x16d7a, 0x16e3f), (0x16e9b, 0x16e9f), (0x16eb9, 0x16eba), (0x16ed4, 0x16eff),
    (0x16f4b, 0x16f4f), (0x16f88, 0x16f92), (0x16fa0, 0x16fdf), (0x16fe4, 0x16ff1),
    (0x16ff7, 0x16fff), (0x18cd6, 0x18cfe), (0x18d1f, 0x18d7f), (0x18df3, 0x1afef),
    (0x1b123, 0x1b131), (0x1b133, 0x1b14f), (0x1b153, 0x1b154), (0x1b156, 0x1b163),
    (0x1b168, 0x1b16f), (0x1b2fc, 0x1bbff), (0x1bc6b, 0x1bc6f), (0x1bc7d, 0x1bc7f),
    (0x1bc89, 0x1bc8f), (0x1bc9a, 0x1bc9b), (0x1bc9d, 0x1bc9e), (0x1bca0, 0x1cbff),
    (0x1ccfd, 0x1ccff), (0x1ceb4, 0x1ceb9), (0x1ced1, 0x1cedf), (0x1cef1, 0x1cf4f),
    (0x1cfc4, 0x1cfff), (0x1d0f6, 0x1d0ff), (0x1d127, 0x1d128), (0x1d165, 0x1d169),
    (0x1d16d, 0x1d182), (0x1d185, 0x1d18b), (0x1d1aa, 0x1d1ad), (0x1d1eb, 0x1d1ff),
    (0x1d242, 0x1d244), (0x1d246, 0x1d2bf), (0x1d2d4, 0x1d2df), (0x1d2f4, 0x1d2ff),
    (0x1d357, 0x1d35f), (0x1d379, 0x1d3ff), (0x1d4a0, 0x1d4a1), (0x1d4a3, 0x1d4a4),
    (0x1d4a7, 0x1d4a8), (0x1d50b, 0x1d50c), (0x1d547, 0x1d549), (0x1d6a6, 0x1d6a7),
    (0x1d7cc, 0x1d7cd), (0x1da00, 0x1da36), (0x1da3b, 0x1da6c), (0x1da8c, 0x1deff),
    (0x1df1f, 0x1df24), (0x1df2b, 0x1e02f), (0x1e06e, 0x1e0ff), (0x1e12d, 0x1e136),
    (0x1e13e, 0x1e13f), (0x1e14a, 0x1e14d), (0x1e150, 0x1e28f), (0x1e2ae, 0x1e2bf),
    (0x1e2ec, 0x1e2ef), (0x1e2fa, 0x1e2fe), (0x1e300, 0x1e4cf), (0x1e4ec, 0x1e4ef),
    (0x1e4fa, 0x1e5cf), (0x1e5ee, 0x1e5ef), (0x1e5fb, 0x1e5fe), (0x1e600, 0x1e6bf),
    (0x1e6ee, 0x1e6ef), (0x1e6f5, 0x1e6fd), (0x1e700, 0x1e7df), (0x1e8c5, 0x1e8c6),
    (0x1e8d0, 0x1e8ff), (0x1e944, 0x1e94a), (0x1e94c, 0x1e94f), (0x1e95a, 0x1e95d),
    (0x1e960, 0x1ec70), (0x1ecb5, 0x1ed00), (0x1ed3e, 0x1edff), (0x1ee25, 0x1ee26),
    (0x1ee3c, 0x1ee41), (0x1ee43, 0x1ee46), (0x1ee55, 0x1ee56), (0x1ee65, 0x1ee66),
    (0x1ee9c, 0x1eea0), (0x1eebc, 0x1eeef), (0x1eef2, 0x1efff), (0x1f02c, 0x1f02f),
    (0x1f094, 0x1f09f), (0x1f0af, 0x1f0b0), (0x1f0f6, 0x1f0ff), (0x1f1ae, 0x1f1e5),
    (0x1f203, 0x1f20f), (0x1f23c, 0x1f23f), (0x1f249, 0x1f24f), (0x1f252, 0x1f25f),
    (0x1f266, 0x1f2ff), (0x1f6d9, 0x1f6db), (0x1f6ed, 0x1f6ef), (0x1f6fd, 0x1f6ff),
    (0x1f7da, 0x1f7df), (0x1f7ec, 0x1f7ef), (0x1f7f1, 0x1f7ff), (0x1f80c, 0x1f80f),
    (0x1f848, 0x1f84f), (0x1f85a, 0x1f85f), (0x1f888, 0x1f88f), (0x1f8ae, 0x1f8af),
    (0x1f8bc, 0x1f8bf), (0x1f8c2, 0x1f8cf), (0x1f8d9, 0x1f8ff), (0x1fa58, 0x1fa5f),
    (0x1fa6e, 0x1fa6f), (0x1fa7d, 0x1fa7f), (0x1fa8b, 0x1fa8d), (0x1fac9, 0x1facc),
    (0x1fadd, 0x1fade), (0x1faeb, 0x1faee), (0x1faf9, 0x1faff), (0x1fbfb, 0x1ffff),
    (0x2a6e0, 0x2a6ff), (0x2b81e, 0x2b81f), (0x2ceae, 0x2ceaf), (0x2ebe1, 0x2ebef),
    (0x2ee5e, 0x2f7ff), (0x2fa1e, 0x2ffff), (0x3134b, 0x3134f), (0x3347a, 0x10ffff)]

/-- Whether a character has no look of its own. -/
def isHidden (c : Char) : Bool :=
  hiddenSingles.contains c.toNat || hiddenRanges.any fun r => r.1 ≤ c.toNat && c.toNat ≤ r.2

end Nya.Text
