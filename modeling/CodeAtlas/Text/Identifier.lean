import CodeAtlas.Text.Word

/-!
# Identifiers and their normal form

Which characters begin and continue an identifier, and the compatibility normal form in which two
spellings of one identifier are compared: characters are decomposed, combining marks are put in the
order of their classes, and what can be composed is composed.

## Main definitions

* `startsIdentifier`, `continuesIdentifier` — the two character classes
* `isIdentifier` — a text that is an identifier
* `normalizeIdentifier` — the compatibility normal form
-/

namespace CodeAtlas.Text

/-- Letters and digits beyond ASCII that may not begin an identifier. -/
def nonInitialRanges : Ranges := Ranges.ofGaps
  "178 2 5 1 2 3 699 1 741 10 134 10 198 10 412 10 118 10 4 6 108 10 118 10 118 10 2 6 110
  13 115 10 8 7 103 10 104 7 7 19 109 10 67 1 28 10 89 1 28 10 70 20 268 10 70 10 719 20
  1123 10 6 10 22 10 300 10 128 11 165 10 6 10 182 10 86 10 134 10 6 10 1046 1 3 6 6 10 198
  16 41 1 726 60 78 22 630 30 1385 1 305 1 866 4 138 10 30 8 1 15 32 10 39 15 29536 10 518 6
  154 10 38 10 198 10 22 10 86 10 406 10 20580 6 406 2 116 1 1 1 1 1 1 1 1 1 1 1 1 1 1 1 145
  10 132 2 359 45 65 4 17 2 341 27 36 4 380 10 942 8 25 7 39 9 75 5 22 6 160 2 2 16 2 46 64
  9 52 2 30 3 75 5 104 8 24 8 41 7 330 6 48 10 294 31 158 10 42 4 112 7 134 30 128 10 60 10
  144 10 7 20 251 10 342 10 118 10 374 10 102 10 102 12 420 19 93 10 758 29 227 10 70 10 534
  21 19083 10 86 10 134 10 1 7 798 23 25673 20 108 25 1109 50 2368 10 422 10 1485 9 128 10
  791 59 1 3 1 4 76 45 1 15 962 13 2787 10"

/-- Characters beyond ASCII that may not begin an identifier, but continue one. -/
def furtherRanges : Ranges := Ranges.ofGaps
  "183 1 584 112 23 1 251 5 265 45 1 1 1 2 1 2 1 1 72 11 48 31 6 1 101 7 2 6 2 2 1 4 2 10 23
  1 30 27 91 11 15 10 33 9 9 1 24 4 1 9 1 3 1 5 43 3 60 8 42 24 1 33 54 3 1 18 1 7 10 2 2 10
  17 3 56 1 1 7 2 2 2 3 9 1 10 2 2 10 14 1 2 3 56 1 1 5 4 2 2 3 3 1 20 12 3 1 11 3 56 1 1 8
  1 3 1 3 20 2 2 10 10 6 1 3 56 1 1 7 2 2 2 3 7 3 10 2 2 10 18 1 59 5 3 3 1 4 9 1 14 10 16 5
  55 1 1 7 1 3 1 4 7 2 11 2 2 10 17 3 56 1 1 7 1 3 1 4 7 2 11 2 2 10 16 4 55 2 1 7 1 3 1 4 9
  1 10 2 2 10 17 3 70 1 4 6 1 1 1 8 6 10 2 2 61 1 1 8 12 8 1 10 87 1 1 10 11 6 2 10 62 2 6
  10 11 1 1 1 1 1 4 2 49 20 1 2 5 11 1 36 9 1 100 20 1 10 12 4 4 3 1 3 2 7 3 4 13 12 1 15
  703 3 9 9 928 4 28 3 29 2 30 2 64 32 9 1 2 10 33 3 1 11 143 1 118 12 4 12 10 10 128 11 60
  5 57 10 1 29 2 11 6 10 22 14 1 16 49 5 47 17 11 10 17 9 12 3 30 13 2 10 44 14 48 20 8 10 6
  10 118 3 1 21 4 1 6 1 2 3 198 64 575 2 19 1 123 13 4 1 3 12 3070 3 141 1 96 32 554 6 105 2
  30085 10 69 1 4 10 32 2 80 2 272 1 3 1 4 1 23 5 4 1 83 2 50 18 10 10 6 18 13 11 28 8 25 13
  44 4 47 14 15 10 11 1 10 10 47 14 12 1 8 2 2 10 33 3 50 1 1 3 2 2 5 2 1 1 41 5 5 2 236 8 1
  2 2 10 20260 1 737 16 16 16 3 2 24 3 192 10 37 1 94 2 605 1 226 1 149 5 293 10 1367 3 1 2
  5 4 40 3 4 1 165 2 573 4 8 10 369 2 153 11 49 4 122 3 53 15 31 11 2 2 10 4 45 11 7 1 45 10
  6 3 36 14 1 10 5 2 44 1 12 3 48 14 8 4 1 12 82 12 6 1 160 12 5 10 6 4 55 2 1 7 2 2 2 3 9 1
  10 2 2 7 3 5 192 18 9 10 4 1 81 20 12 10 213 7 2 9 27 2 82 17 15 10 81 13 8 10 83 15 4 10
  242 15 165 10 70 6 1 2 2 4 1 1 1 2 12 10 119 7 2 7 3 1 28 10 40 7 1 4 8 1 9 11 46 16 405 8
  1 8 16 10 56 22 1 14 122 6 3 1 1 2 1 7 1 1 8 10 48 5 1 2 1 5 8 10 329 4 19305 10 86 10 38
  5 59 7 25 10 1013 1 1 55 7 4 81 1 11 2 19627 2 4705 46 2 23 542 5 3 6 8 8 2 7 30 4 148 3
  1417 50 512 55 4 50 8 1 14 1 22 5 1 15 1360 7 1 17 2 7 1 2 1 5 261 7 9 10 356 1 61 14 1494
  7 109 7 5 10 4758 10 787718 240"

/-- A character that may begin an identifier. -/
def startsIdentifier (c : Char) : Bool :=
  if c.toNat < 128 then c.isAlpha || c == '_'
  else isAlphanumeric c && !nonInitialRanges.contains c.toNat || [0x1885, 0x1886, 0x2118, 0x212E].contains c.toNat

/-- A character that may continue an identifier. -/
def continuesIdentifier (c : Char) : Bool :=
  if c.toNat < 128 then c.isAlphanum || c == '_' else startsIdentifier c || furtherRanges.contains c.toNat

/-- A non-empty text whose first character begins an identifier and whose others continue it. -/
def isIdentifier : List Char → Bool
  | [] => false
  | c :: rest => startsIdentifier c && rest.all continuesIdentifier

/-- The full compatibility decompositions of identifier characters. -/
def decompositions : Rows := Rows.ofTexts [
  (0xAA, "a"), (0xB5, "μ - - - - o"),
  (0xC0, "À Á Â Ã Ä Å - Ç È É Ê Ë Ì Í Î Ï - Ñ Ò Ó Ô Õ Ö - - Ù Ú Û Ü Ý -
    - à á â ã ä å - ç è é ê ë ì í î ï - ñ ò ó ô õ ö - - ù ú û ü ý - ÿ
    Ā ā Ă ă Ą ą Ć ć Ĉ ĉ Ċ ċ Č č Ď ď - - Ē ē Ĕ ĕ Ė ė Ę ę Ě ě Ĝ ĝ Ğ ğ
    Ġ ġ Ģ ģ Ĥ ĥ - - Ĩ ĩ Ī ī Ĭ ĭ Į į İ - IJ ij Ĵ ĵ Ķ ķ - Ĺ ĺ Ļ ļ Ľ ľ L· l·
    - - Ń ń Ņ ņ Ň ň ʼn - - Ō ō Ŏ ŏ Ő ő - - Ŕ ŕ Ŗ ŗ Ř ř Ś ś Ŝ ŝ Ş ş Š š
    Ţ ţ Ť ť - - Ũ ũ Ū ū Ŭ ŭ Ů ů Ű ű Ų ų Ŵ ŵ Ŷ ŷ Ÿ Ź ź Ż ż Ž ž s"),
  (0x1A0, "Ơ ơ"), (0x1AF, "Ư ư"),
  (0x1C4, "DŽ Dž dž LJ Lj lj NJ Nj nj Ǎ ǎ Ǐ ǐ Ǒ ǒ Ǔ ǔ Ǖ ǖ Ǘ ǘ Ǚ ǚ Ǜ ǜ -
    Ǟ ǟ Ǡ ǡ Ǣ ǣ - - Ǧ ǧ Ǩ ǩ Ǫ ǫ Ǭ ǭ Ǯ ǯ ǰ DZ Dz dz Ǵ ǵ - - Ǹ ǹ Ǻ ǻ
    Ǽ ǽ Ǿ ǿ Ȁ ȁ Ȃ ȃ Ȅ ȅ Ȇ ȇ Ȉ ȉ Ȋ ȋ Ȍ ȍ Ȏ ȏ Ȑ ȑ Ȓ ȓ Ȕ ȕ Ȗ ȗ Ș ș Ț
    ț - - Ȟ ȟ"),
  (0x226, "Ȧ ȧ Ȩ ȩ Ȫ ȫ Ȭ ȭ Ȯ ȯ Ȱ ȱ Ȳ ȳ"), (0x2B0, "h ɦ j r ɹ ɻ ʁ w y"),
  (0x2E0, "ɣ l s x ʕ"), (0x340, "̀ ́ - ̓ ̈́"), (0x374, "ʹ"),
  (0x386, "Ά · Έ Ή Ί - Ό - Ύ Ώ ΐ"), (0x3AA, "Ϊ Ϋ ά έ ή ί ΰ"),
  (0x3CA, "ϊ ϋ ό ύ ώ - β θ Υ Ύ Ϋ φ π"), (0x3F0, "κ ρ ς - Θ ε - - - Σ"),
  (0x400, "Ѐ Ё - Ѓ - - - Ї - - - - Ќ Ѝ Ў"), (0x419, "Й"), (0x439, "й"),
  (0x450, "ѐ ё - ѓ - - - ї - - - - ќ ѝ ў"), (0x476, "Ѷ ѷ"), (0x4C1, "Ӂ ӂ"),
  (0x4D0, "Ӑ ӑ Ӓ ӓ - - Ӗ ӗ - - Ӛ ӛ Ӝ ӝ Ӟ ӟ - - Ӣ ӣ Ӥ ӥ Ӧ ӧ - - Ӫ ӫ Ӭ ӭ Ӯ ӯ
    Ӱ ӱ Ӳ ӳ Ӵ ӵ - - Ӹ ӹ"),
  (0x587, "եւ"), (0x622, "آ أ ؤ إ ئ"), (0x675, "اٴ وٴ ۇٴ يٴ"), (0x6C0, "ۀ - ۂ"),
  (0x6D3, "ۓ"), (0x929, "ऩ"), (0x931, "ऱ - - ऴ"), (0x958, "क़ ख़ ग़ ज़ ड़ ढ़ फ़ य़"),
  (0x9CB, "ো ৌ"), (0x9DC, "ড় ঢ় - য়"), (0xA33, "ਲ਼ - - ਸ਼"), (0xA59, "ਖ਼ ਗ਼ ਜ਼ - - ਫ਼"),
  (0xB48, "ୈ - - ୋ ୌ"), (0xB5C, "ଡ଼ ଢ଼"), (0xB94, "ஔ"), (0xBCA, "ொ ோ ௌ"), (0xC48, "ై"),
  (0xCC0, "ೀ"), (0xCC7, "ೇ ೈ - ೊ ೋ"), (0xD4A, "ൊ ോ ൌ"), (0xDDA, "ේ - ො ෝ ෞ"),
  (0xE33, "ํา"), (0xEB3, "ໍາ"), (0xEDC, "ຫນ ຫມ"), (0xF43, "གྷ"),
  (0xF4D, "ཌྷ - - - - དྷ - - - - བྷ - - - - ཛྷ"), (0xF69, "ཀྵ"), (0xF73, "ཱི - ཱུ ྲྀ ྲཱྀ ླྀ ླཱྀ"),
  (0xF81, "ཱྀ"), (0xF93, "ྒྷ"), (0xF9D, "ྜྷ - - - - ྡྷ - - - - ྦྷ - - - - ྫྷ"), (0xFB9, "ྐྵ"),
  (0x1026, "ဦ"), (0x10FC, "ნ"), (0x1B06, "ᬆ - ᬈ - ᬊ - ᬌ - ᬎ - - - ᬒ"),
  (0x1B3B, "ᬻ - ᬽ - - ᭀ ᭁ - ᭃ"),
  (0x1D2C, "A Æ B - D E Ǝ G H I J K L M N - O Ȣ P R T U W a ɐ ɑ ᴂ b d e ə ɛ ɜ g - k m ŋ o ɔ ᴖ ᴗ p
    t u ᴝ ɯ v ᴥ β γ δ φ χ i r u v β γ ρ φ χ"),
  (0x1D78, "н"),
  (0x1D9B, "ɒ c ɕ ð ɜ f ɟ ɡ ɥ ɨ ɩ ɪ ᵻ ʝ ɭ ᶅ ʟ ɱ ɰ ɲ ɳ ɴ ɵ ɸ ʂ ʃ ƫ ʉ ʊ ᴜ ʋ ʌ z ʐ ʑ ʒ θ"),
  (0x1E00, "Ḁ ḁ Ḃ ḃ Ḅ ḅ Ḇ ḇ Ḉ ḉ Ḋ ḋ Ḍ ḍ Ḏ ḏ Ḑ ḑ Ḓ ḓ Ḕ ḕ Ḗ ḗ Ḙ ḙ Ḛ
    ḛ Ḝ ḝ Ḟ ḟ Ḡ ḡ Ḣ ḣ Ḥ ḥ Ḧ ḧ Ḩ ḩ Ḫ ḫ Ḭ ḭ Ḯ ḯ Ḱ ḱ Ḳ ḳ Ḵ ḵ Ḷ ḷ Ḹ
    ḹ Ḻ ḻ Ḽ ḽ Ḿ ḿ Ṁ ṁ Ṃ ṃ Ṅ ṅ Ṇ ṇ Ṉ ṉ Ṋ ṋ Ṍ ṍ Ṏ ṏ Ṑ ṑ Ṓ ṓ Ṕ
    ṕ Ṗ ṗ Ṙ ṙ Ṛ ṛ Ṝ ṝ Ṟ ṟ Ṡ ṡ Ṣ ṣ Ṥ ṥ Ṧ ṧ Ṩ ṩ Ṫ ṫ Ṭ ṭ Ṯ ṯ Ṱ ṱ
    Ṳ ṳ Ṵ ṵ Ṷ ṷ Ṹ ṹ Ṻ ṻ Ṽ ṽ Ṿ ṿ Ẁ ẁ Ẃ ẃ Ẅ ẅ Ẇ ẇ Ẉ ẉ Ẋ ẋ Ẍ ẍ Ẏ ẏ
    Ẑ ẑ Ẓ ẓ Ẕ ẕ ẖ ẗ ẘ ẙ aʾ ṡ - - - - Ạ ạ Ả ả Ấ ấ Ầ ầ Ẩ ẩ Ẫ ẫ Ậ
    ậ Ắ ắ Ằ ằ Ẳ ẳ Ẵ ẵ Ặ ặ Ẹ ẹ Ẻ ẻ Ẽ ẽ Ế ế Ề ề Ể ể Ễ ễ
    Ệ ệ Ỉ ỉ Ị ị Ọ ọ Ỏ ỏ Ố ố Ồ ồ Ổ ổ Ỗ ỗ Ộ ộ Ớ ớ Ờ ờ Ở
    ở Ỡ ỡ Ợ ợ Ụ ụ Ủ ủ Ứ ứ Ừ ừ Ử ử Ữ ữ Ự ự Ỳ ỳ Ỵ ỵ Ỷ ỷ Ỹ
    ỹ"),
  (0x1F00, "ἀ ἁ ἂ ἃ ἄ ἅ ἆ ἇ Ἀ Ἁ Ἂ Ἃ Ἄ Ἅ Ἆ Ἇ ἐ ἑ ἒ ἓ ἔ ἕ - -
    Ἐ Ἑ Ἒ Ἓ Ἔ Ἕ - - ἠ ἡ ἢ ἣ ἤ ἥ ἦ ἧ Ἠ Ἡ Ἢ Ἣ Ἤ Ἥ Ἦ Ἧ ἰ ἱ
    ἲ ἳ ἴ ἵ ἶ ἷ Ἰ Ἱ Ἲ Ἳ Ἴ Ἵ Ἶ Ἷ ὀ ὁ ὂ ὃ ὄ ὅ - - Ὀ Ὁ Ὂ Ὃ
    Ὄ Ὅ - - ὐ ὑ ὒ ὓ ὔ ὕ ὖ ὗ - Ὑ - Ὓ - Ὕ - Ὗ ὠ ὡ ὢ ὣ ὤ ὥ ὦ ὧ
    Ὠ Ὡ Ὢ Ὣ Ὤ Ὥ Ὦ Ὧ ὰ ά ὲ έ ὴ ή ὶ ί ὸ ό ὺ ύ ὼ ώ - - ᾀ ᾁ ᾂ ᾃ
    ᾄ ᾅ ᾆ ᾇ ᾈ ᾉ ᾊ ᾋ ᾌ ᾍ ᾎ ᾏ ᾐ ᾑ ᾒ ᾓ ᾔ ᾕ ᾖ
    ᾗ ᾘ ᾙ ᾚ ᾛ ᾜ ᾝ ᾞ ᾟ ᾠ ᾡ ᾢ ᾣ ᾤ ᾥ ᾦ ᾧ ᾨ ᾩ ᾪ
    ᾫ ᾬ ᾭ ᾮ ᾯ ᾰ ᾱ ᾲ ᾳ ᾴ - ᾶ ᾷ Ᾰ Ᾱ Ὰ Ά ᾼ - ι - - - ῂ ῃ ῄ - ῆ
    ῇ Ὲ Έ Ὴ Ή ῌ - - - ῐ ῑ ῒ ΐ - - ῖ ῗ Ῐ Ῑ Ὶ Ί - - - - ῠ ῡ ῢ ΰ ῤ ῥ ῦ
    ῧ Ῠ Ῡ Ὺ Ύ Ῥ"),
  (0x1FF2, "ῲ ῳ ῴ - ῶ ῷ Ὸ Ό Ὼ Ώ ῼ"), (0x2071, "i"), (0x207F, "n"),
  (0x2090, "a e o x ə h k l m n p s t"),
  (0x2102, "C - - - - Ɛ - - g H H H h ħ I I L l - N - - - P Q R R R"),
  (0x2124, "Z - Ω - Z - K Å B C - e E F - M o א ב ג ד i - - π γ Γ Π"), (0x2145, "D d e i j"),
  (0x2160, "I II III IV V VI VII VIII IX X XI XII L C D M i ii iii iv v vi vii viii ix x xi xii l
    c d m"),
  (0x2C7C, "j V"), (0x2D6F, "ⵡ"), (0x3038, "十 卄 卅"),
  (0x304C, "が - ぎ - ぐ - げ - ご - ざ - じ - ず - ぜ - ぞ - だ - ぢ - - づ - で - ど"),
  (0x3070, "ば ぱ - び ぴ - ぶ ぷ - べ ぺ - ぼ ぽ"), (0x3094, "ゔ"), (0x309E, "ゞ より"),
  (0x30AC, "ガ - ギ - グ - ゲ - ゴ - ザ - ジ - ズ - ゼ - ゾ - ダ - ヂ - - ヅ - デ - ド"),
  (0x30D0, "バ パ - ビ ピ - ブ プ - ベ ペ - ボ ポ"), (0x30F4, "ヴ - - ヷ ヸ ヹ ヺ - - - ヾ コト"),
  (0x3131, "ᄀ ᄁ ᆪ ᄂ ᆬ ᆭ ᄃ ᄄ ᄅ ᆰ ᆱ ᆲ ᆳ ᆴ ᆵ ᄚ ᄆ ᄇ ᄈ ᄡ ᄉ ᄊ ᄋ ᄌ ᄍ ᄎ ᄏ ᄐ ᄑ ᄒ ᅡ ᅢ ᅣ ᅤ ᅥ ᅦ ᅧ ᅨ ᅩ ᅪ ᅫ ᅬ ᅭ
    ᅮ ᅯ ᅰ ᅱ ᅲ ᅳ ᅴ ᅵ ᅠ ᄔ ᄕ ᇇ ᇈ ᇌ ᇎ ᇓ ᇗ ᇙ ᄜ ᇝ ᇟ ᄝ ᄞ ᄠ ᄢ ᄣ ᄧ ᄩ ᄫ ᄬ ᄭ ᄮ ᄯ ᄲ ᄶ ᅀ ᅇ ᅌ ᇱ ᇲ ᅗ ᅘ ᅙ ᆄ ᆅ ᆈ ᆑ
    ᆒ ᆔ ᆞ ᆡ"),
  (0xA69C, "ъ ь"), (0xA770, "ꝯ"), (0xA7F2, "C F Q - - - Ħ œ"), (0xAB5C, "ꜧ ꬷ ɫ ꭒ"), (0xAB69, "ʍ"),
  (0xF900, "豈 更 車 賈 滑 串 句 龜 龜 契 金 喇 奈 懶 癩 羅 蘿 螺 裸 邏 樂 洛 烙 珞 落 酪 駱 亂 卵 欄 爛 蘭 鸞 嵐 濫 藍 襤 拉 臘 蠟 廊 朗 浪
    狼 郎 來 冷 勞 擄 櫓 爐 盧 老 蘆 虜 路 露 魯 鷺 碌 祿 綠 菉 錄 鹿 論 壟 弄 籠 聾 牢 磊 賂 雷 壘 屢 樓 淚 漏 累 縷 陋 勒 肋 凜 凌 稜 綾 菱 陵
    讀 拏 樂 諾 丹 寧 怒 率 異 北 磻 便 復 不 泌 數 索 參 塞 省 葉 說 殺 辰 沈 拾 若 掠 略 亮 兩 凉 梁 糧 良 諒 量 勵 呂 女 廬 旅 濾 礪 閭 驪 麗
    黎 力 曆 歷 轢 年 憐 戀 撚 漣 煉 璉 秊 練 聯 輦 蓮 連 鍊 列 劣 咽 烈 裂 說 廉 念 捻 殮 簾 獵 令 囹 寧 嶺 怜 玲 瑩 羚 聆 鈴 零 靈 領 例 禮 醴
    隸 惡 了 僚 寮 尿 料 樂 燎 療 蓼 遼 龍 暈 阮 劉 杻 柳 流 溜 琉 留 硫 紐 類 六 戮 陸 倫 崙 淪 輪 律 慄 栗 率 隆 利 吏 履 易 李 梨 泥 理 痢 罹
    裏 裡 里 離 匿 溺 吝 燐 璘 藺 隣 鱗 麟 林 淋 臨 立 笠 粒 狀 炙 識 什 茶 刺 切 度 拓 糖 宅 洞 暴 輻 行 降 見 廓 兀 嗀 - - 塚 - 晴 - - 凞
    猪 益 礼 神 祥 福 靖 精 羽 - 蘒 - 諸 - - 逸 都 - - - 飯 飼 館 鶴 郞 隷 侮 僧 免 勉 勤 卑 喝 嘆 器 塀 墨 層 屮 悔 慨 憎 懲 敏 既 暑 梅
    海 渚 漢 煮 爫 琢 碑 社 祉 祈 祐 祖 祝 禍 禎 穀 突 節 練 縉 繁 署 者 臭 艹 艹 著 褐 視 謁 謹 賓 贈 辶 逸 難 響 頻 恵 𤋮 舘 - - 並 况 全 侀
    充 冀 勇 勺 喝 啕 喙 嗢 塚 墳 奄 奔 婢 嬨 廒 廙 彩 徭 惘 慎 愈 憎 慠 懲 戴 揄 搜 摒 敖 晴 朗 望 杖 歹 殺 流 滛 滋 漢 瀞 煮 瞧 爵 犯 猪 瑱 甆
    画 瘝 瘟 益 盛 直 睊 着 磌 窱 節 类 絛 練 缾 者 荒 華 蝹 襁 覆 視 調 諸 請 謁 諾 諭 謹 變 贈 輸 遲 醙 鉶 陼 難 靖 韛 響 頋 頻 鬒 龜 𢡊 𢡄 𣏕
    㮝 䀘 䀹 𥉉 𥳐 𧻓 齃 龎"),
  (0xFB00, "ff fi fl ffi ffl st st"), (0xFB13, "մն մե մի վն մխ"),
  (0xFB1D, "יִ - ײַ ע א ד ה כ ל ם ר ת - שׁ שׂ שּׁ שּׂ אַ אָ אּ בּ גּ דּ הּ וּ זּ - טּ יּ ךּ כּ לּ
    - מּ - נּ סּ - ףּ פּ - צּ קּ רּ שּ תּ וֹ בֿ כֿ פֿ אל ٱ ٱ ٻ ٻ ٻ ٻ پ پ پ پ ڀ ڀ ڀ ڀ ٺ ٺ ٺ ٺ ٿ ٿ ٿ
    ٿ ٹ ٹ ٹ ٹ ڤ ڤ ڤ ڤ ڦ ڦ ڦ ڦ ڄ ڄ ڄ ڄ ڃ ڃ ڃ ڃ چ چ چ چ ڇ ڇ ڇ ڇ ڍ ڍ ڌ ڌ ڎ ڎ ڈ ڈ ژ ژ ڑ ڑ ک ک ک ک گ گ
    گ گ ڳ ڳ ڳ ڳ ڱ ڱ ڱ ڱ ں ں ڻ ڻ ڻ ڻ ۀ ۀ ہ ہ ہ ہ ھ ھ ھ ھ ے ے ۓ ۓ"),
  (0xFBD3, "ڭ ڭ ڭ ڭ ۇ ۇ ۆ ۆ ۈ ۈ ۇٴ ۋ ۋ ۅ ۅ ۉ ۉ ې ې ې ې ى ى ئا ئا ئە ئە ئو ئو ئۇ ئۇ ئۆ ئۆ
    ئۈ ئۈ ئې ئې ئې ئى ئى ئى ی ی ی ی ئج ئح ئم ئى ئي بج بح بخ بم بى بي تج تح تخ تم تى
    تي ثج ثم ثى ثي جح جم حج حم خج خح خم سج سح سخ سم صح صم ضج ضح ضخ ضم طح طم ظم عج عم غج غم فج فح
    فخ فم فى في قح قم قى قي كا كج كح كخ كل كم كى كي لج لح لخ لم لى لي مج مح مخ مم مى مي نج نح نخ
    نم نى ني هج هم هى هي يج يح يخ يم يى يي ذٰ رٰ ىٰ"),
  (0xFC64, "ئر ئز ئم ئن ئى ئي بر بز بم بن بى بي تر تز تم تن تى تي ثر ثز ثم ثن ثى ثي فى في قى
    قي كا كل كم كى كي لم لى لي ما مم نر نز نم نن نى ني ىٰ ير يز يم ين يى يي ئج ئح ئخ ئم ئه بج
    بح بخ بم به تج تح تخ تم ته ثم جح جم حج حم خج خم سج سح سخ سم صح صخ صم ضج ضح ضخ ضم طح ظم عج عم
    غج غم فج فح فخ فم قح قم كج كح كخ كل كم لج لح لخ لم له مج مح مخ مم نج نح نخ نم نه هج هم هٰ يج
    يح يخ يم يه ئم ئه بم به تم ته ثم ثه سم سه شم شه كل كم لم نم نه يم يه ـَّ ـُّ ـِّ طى طي عى عي
    غى غي سى سي شى شي حى حي جى جي خى خي صى صي ضى ضي شج شح شخ شم شر سر صر ضر طى طي عى عي غى غي سى
    سي شى شي حى حي جى جي خى خي صى صي ضى ضي شج شح شخ شم شر سر صر ضر شج شح شخ شم سه شه طم سج سح سخ
    شج شح شخ طم ظم اً اً"),
  (0xFD50, "تجم تحج تحج تحم تخم تمج تمح تمخ جمح جمح حمي حمى سحج سجح سجى سمح سمح سمج سمم سمم صحح
    صحح صمم شحم شحم شجي شمخ شمخ شمم شمم ضحى ضخم ضخم طمح طمح طمم طمي عجم عمم عمم عمى غمم غمي غمى
    فخم فخم قمح قمم لحم لحي لحى لجج لجج لخم لخم لمح لمح محج محم محي مجح مجم مخج مخم - - مجخ همج
    همم نحم نحى نجم نجم نجى نمي نمى يمم يمم بخي تجي تجى تخي تخى تمي تمى جمي جحى جمى سخى صحي شحي
    ضحي لجي لمي يحي يجي يمي ممي قمي نحي قمح لحم عمي كمي نجح مخي لجم كمم لجم نجح جحي حجي مجي فمي
    بحي كمم عجم صمم سخي نجي"),
  (0xFDF0, "صلے قلے الله اكبر محمد صلعم رسول عليه وسلم صلى"), (0xFE33, "_ _"), (0xFE4D, "_ _ _"),
  (0xFE71, "ـً"),
  (0xFE77, "ـَ - ـُ - ـِ - ـّ - ـْ ء آ آ أ أ ؤ ؤ إ إ ئ ئ ئ ئ ا ا ب ب ب ب ة ة ت ت ت ت ث
    ث ث ث ج ج ج ج ح ح ح ح خ خ خ خ د د ذ ذ ر ر ز ز س س س س ش ش ش ش ص ص ص ص ض ض ض ض ط ط ط ط ظ ظ ظ ظ
    ع ع ع ع غ غ غ غ ف ف ف ف ق ق ق ق ك ك ك ك ل ل ل ل م م م م ن ن ن ن ه ه ه ه و و ى ى ي ي ي ي لآ
    لآ لأ لأ لإ لإ لا لا"),
  (0xFF10, "0 1 2 3 4 5 6 7 8 9"),
  (0xFF21, "A B C D E F G H I J K L M N O P Q R S T U V W X Y Z - - - - _ - a b c d e f g h i j k
    l m n o p q r s t u v w x y z"),
  (0xFF66, "ヲ ァ ィ ゥ ェ ォ ャ ュ ョ ッ ー ア イ ウ エ オ カ キ ク ケ コ サ シ ス セ ソ タ チ ツ テ ト ナ ニ ヌ ネ ノ ハ ヒ フ ヘ ホ マ ミ
    ム メ モ ヤ ユ ヨ ラ リ ル レ ロ ワ ン ゙ ゚ ᅠ ᄀ ᄁ ᆪ ᄂ ᆬ ᆭ ᄃ ᄄ ᄅ ᆰ ᆱ ᆲ ᆳ ᆴ ᆵ ᄚ ᄆ ᄇ ᄈ ᄡ ᄉ ᄊ ᄋ ᄌ ᄍ ᄎ ᄏ ᄐ ᄑ ᄒ -
    - - ᅡ ᅢ ᅣ ᅤ ᅥ ᅦ - - ᅧ ᅨ ᅩ ᅪ ᅫ ᅬ - - ᅭ ᅮ ᅯ ᅰ ᅱ ᅲ - - ᅳ ᅴ ᅵ"),
  (0x10781, "ː ˑ æ ʙ ɓ - ʣ ꭦ ʥ ʤ ɖ ɗ ᶑ ɘ ɞ ʩ ɤ ɢ ɠ ʛ ħ ʜ ɧ ʄ ʪ ʫ ɬ 𝼄 ꞎ ɮ 𝼅 ʎ 𝼆 ø ɶ ɷ q ɺ 𝼈 ɽ ɾ ʀ ʨ
    ʦ ꭧ ʧ ʈ ⱱ - ʏ ʡ ʢ ʘ ǀ ǁ ǂ 𝼊 𝼞"),
  (0x1109A, "𑂚 - 𑂜"), (0x110AB, "𑂫"), (0x1112E, "𑄮 𑄯"), (0x1134B, "𑍋 𑍌"),
  (0x114BB, "𑒻 𑒼 - 𑒾"), (0x115BA, "𑖺 𑖻"), (0x11938, "𑤸"),
  (0x1D400, "A B C D E F G H I J K L M N O P Q R S T U V W X Y Z a b c d e f g h i j k l m n o p q
    r s t u v w x y z A B C D E F G H I J K L M N O P Q R S T U V W X Y Z a b c d e f g - i j k l
    m n o p q r s t u v w x y z A B C D E F G H I J K L M N O P Q R S T U V W X Y Z a b c d e f g
    h i j k l m n o p q r s t u v w x y z A - C D - - G - - J K - - N O P Q - S T U V W X Y Z a b
    c d - f - h i j k l m n - p q r s t u v w x y z A B C D E F G H I J K L M N O P Q R S T U V W
    X Y Z a b c d e f g h i j k l m n o p q r s t u v w x y z A B - D E F G - - J K L M N O P Q -
    S T U V W X Y - a b c d e f g h i j k l m n o p q r s t u v w x y z A B - D E F G - I J K L M
    - O - - - S T U V W X Y - a b c d e f g h i j k l m n o p q r s t u v w x y z A B C D E F G H
    I J K L M N O P Q R S T U V W X Y Z a b c d e f g h i j k l m n o p q r s t u v w x y z A B C
    D E F G H I J K L M N O P Q R S T U V W X Y Z a b c d e f g h i j k l m n o p q r s t u v w x
    y z A B C D E F G H I J K L M N O P Q R S T U V W X Y Z a b c d e f g h i j k l m n o p q r s
    t u v w x y z A B C D E F G H I J K L M N O P Q R S T U V W X Y Z a b c d e f g h i j k l m n
    o p q r s t u v w x y z A B C D E F G H I J K L M N O P Q R S T U V W X Y Z a b c d e f g h i
    j k l m n o p q r s t u v w x y z A B C D E F G H I J K L M N O P Q R S T U V W X Y Z a b c d
    e f g h i j k l m n o p q r s t u v w x y z ı ȷ - - Α Β Γ Δ Ε Ζ Η Θ Ι Κ Λ Μ Ν Ξ Ο Π Ρ Θ Σ Τ Υ
    Φ Χ Ψ Ω - α β γ δ ε ζ η θ ι κ λ μ ν ξ ο π ρ ς σ τ υ φ χ ψ ω - ε θ κ φ ρ π Α Β Γ Δ Ε Ζ Η Θ Ι Κ
    Λ Μ Ν Ξ Ο Π Ρ Θ Σ Τ Υ Φ Χ Ψ Ω - α β γ δ ε ζ η θ ι κ λ μ ν ξ ο π ρ ς σ τ υ φ χ ψ ω - ε θ κ φ ρ
    π Α Β Γ Δ Ε Ζ Η Θ Ι Κ Λ Μ Ν Ξ Ο Π Ρ Θ Σ Τ Υ Φ Χ Ψ Ω - α β γ δ ε ζ η θ ι κ λ μ ν ξ ο π ρ ς σ τ
    υ φ χ ψ ω - ε θ κ φ ρ π Α Β Γ Δ Ε Ζ Η Θ Ι Κ Λ Μ Ν Ξ Ο Π Ρ Θ Σ Τ Υ Φ Χ Ψ Ω - α β γ δ ε ζ η θ ι
    κ λ μ ν ξ ο π ρ ς σ τ υ φ χ ψ ω - ε θ κ φ ρ π Α Β Γ Δ Ε Ζ Η Θ Ι Κ Λ Μ Ν Ξ Ο Π Ρ Θ Σ Τ Υ Φ Χ Ψ
    Ω - α β γ δ ε ζ η θ ι κ λ μ ν ξ ο π ρ ς σ τ υ φ χ ψ ω - ε θ κ φ ρ π Ϝ ϝ - - 0 1 2 3 4 5 6 7 8
    9 0 1 2 3 4 5 6 7 8 9 0 1 2 3 4 5 6 7 8 9 0 1 2 3 4 5 6 7 8 9 0 1 2 3 4 5 6 7 8 9"),
  (0x1EE00, "ا ب ج د - و ز ح ط ي ك ل م ن س ع ف ص ق ر ش ت ث خ ذ ض ظ غ ٮ ں ڡ ٯ - ب ج - ه - - ح - ي ك
    ل م ن س ع ف ص ق - ش ت ث خ - ض - غ"),
  (0x1EE42, "ج - - - - ح - ي - ل - ن س ع - ص ق - ش - - خ - ض - غ - ں - ٯ - ب ج - ه - - ح ط ي ك - م
    ن س ع ف ص ق - ش ت ث خ - ض ظ غ ٮ - ڡ - ا ب ج د ه و ز ح ط ي - ل م ن س ع ف ص ق ر ش ت ث خ ذ ض ظ
    غ"),
  (0x1EEA1, "ب ج د - و ز ح ط ي - ل م ن س ع ف ص ق ر ش ت ث خ ذ ض ظ غ"),
  (0x1FBF0, "0 1 2 3 4 5 6 7 8 9"),
  (0x2F800, "丽 丸 乁 𠄢 你 侮 侻 倂 偺 備 僧 像 㒞 𠘺 免 兔 兤 具 𠔜 㒹 內 再 𠕋 冗 冤 仌 冬 况 𩇟 凵 刃 㓟 刻 剆 割 剷 㔕 勇 勉 勤 勺 包 匆
    北 卉 卑 博 即 卽 卿 卿 卿 𠨬 灰 及 叟 𠭣 叫 叱 吆 咞 吸 呈 周 咢 哶 唐 啓 啣 善 善 喙 喫 喳 嗂 圖 嘆 圗 噑 噴 切 壮 城 埴 堍 型 堲 報 墬 𡓤
    売 壷 夆 多 夢 奢 𡚨 𡛪 姬 娛 娧 姘 婦 㛮 㛼 嬈 嬾 嬾 𡧈 寃 寘 寧 寳 𡬘 寿 将 当 尢 㞁 屠 屮 峀 岍 𡷤 嵃 𡷦 嵮 嵫 嵼 巡 巢 㠯 巽 帨 帽 幩 㡢
    𢆃 㡼 庰 庳 庶 廊 𪎒 廾 𢌱 𢌱 舁 弢 弢 㣇 𣊸 𦇚 形 彫 㣣 徚 忍 志 忹 悁 㤺 㤜 悔 𢛔 惇 慈 慌 慎 慌 慺 憎 憲 憤 憯 懞 懲 懶 成 戛 扝 抱 拔 捐
    𢬌 挽 拼 捨 掃 揤 𢯱 搢 揅 掩 㨮 摩 摾 撝 摷 㩬 敏 敬 𣀊 旣 書 晉 㬙 暑 㬈 㫤 冒 冕 最 暜 肭 䏙 朗 望 朡 杞 杓 𣏃 㭉 柺 枅 桒 梅 𣑭 梎 栟 椔
    㮝 楂 榣 槪 檨 𣚣 櫛 㰘 次 𣢧 歔 㱎 歲 殟 殺 殻 𣪍 𡴋 𣫺 汎 𣲼 沿 泍 汧 洖 派 海 流 浩 浸 涅 𣴞 洴 港 湮 㴳 滋 滇 𣻑 淹 潮 𣽞 𣾎 濆 瀹 瀞 瀛
    㶖 灊 災 灷 炭 𠔥 煅 𤉣 熜 𤎫 爨 爵 牐 𤘈 犀 犕 𤜵 𤠔 獺 王 㺬 玥 㺸 㺸 瑇 瑜 瑱 璅 瓊 㼛 甤 𤰶 甾 𤲒 異 𢆟 瘐 𤾡 𤾸 𥁄 㿼 䀈 直 𥃳 𥃲 𥄙 𥄳
    眞 真 真 睊 䀹 瞋 䁆 䂖 𥐝 硎 碌 磌 䃣 𥘦 祖 𥚚 𥛅 福 秫 䄯 穀 穊 穏 𥥼 𥪧 𥪧 竮 䈂 𥮫 篆 築 䈧 𥲀 糒 䊠 糨 糣 紀 𥾆 絣 䌁 緇 縂 繅 䌴 𦈨 𦉇
    䍙 𦋙 罺 𦌾 羕 翺 者 𦓚 𦔣 聠 𦖨 聰 𣍟 䏕 育 脃 䐋 脾 媵 𦞧 𦞵 𣎓 𣎜 舁 舄 辞 䑫 芑 芋 芝 劳 花 芳 芽 苦 𦬼 若 茝 荣 莭 茣 莽 菧 著 荓 菊 菌
    菜 𦰶 𦵫 𦳕 䔫 蓱 蓳 蔖 𧏊 蕤 𦼬 䕝 䕡 𦾱 𧃒 䕫 虐 虜 虧 虩 蚩 蚈 蜎 蛢 蝹 蜨 蝫 螆 䗗 蟡 蠁 䗹 衠 衣 𧙧 裗 裞 䘵 裺 㒻 𧢮 𧥦 䚾 䛇 誠 諭 變
    豕 𧲨 貫 賁 贛 起 𧼯 𠠄 跋 趼 跰 𠣞 軔 輸 𨗒 𨗭 邔 郱 鄑 𨜮 鄛 鈸 鋗 鋘 鉼 鏹 鐕 𨯺 開 䦕 閷 𨵷 䧦 雃 嶲 霣 𩅅 𩈚 䩮 䩶 韠 𩐊 䪲 𩒖 頋 頋 頩
    𩖶 飢 䬳 餩 馧 駂 駾 䯎 𩬰 鬒 鱀 鳽 䳎 䳭 鵧 𪃎 䳸 𪄅 𪈎 𪊑 麻 䵖 黹 黾 鼅 鼏 鼖 鼻 𪘀")]

/-- Runs of a code point relative to the one before, a length, and the class they share. -/
def classesOf (start : Nat) : List Nat → List (Nat × Nat × Nat)
  | gap :: size :: cls :: rest => (start + gap, size, cls) :: classesOf (start + gap) rest
  | _ => []

/-- Combining classes, as runs of a first code point, a length and the class. -/
def combiningClasses : Array (Nat × Nat × Nat) := (classesOf 0 (decimals
  "768 21 230 21 1 232 1 4 220 4 1 232 1 1 216 1 5 220 5 2 202 2 4 220 4 2 202 2 11 220 11 5 1
  5 4 220 4 8 230 8 1 240 1 1 230 1 3 220 3 3 230 3 2 220 3 3 230 3 4 220 4 1 230 1 1 232 1 2
  220 2 1 230 1 1 233 1 2 234 2 1 233 1 2 234 2 1 233 1 13 230 288 5 230 270 1 220 1 4 230 4
  1 220 1 3 230 3 1 222 1 1 220 1 6 230 6 6 220 6 2 230 2 1 220 1 2 230 2 1 222 1 1 228 1 1
  230 1 1 10 1 1 11 1 1 12 1 1 13 1 1 14 1 1 15 1 1 16 1 1 17 1 1 18 1 2 19 2 1 20 1 1 21 1 1
  22 2 1 23 2 1 24 1 1 25 2 1 230 1 1 220 2 1 18 73 8 230 8 1 30 1 1 31 1 1 32 49 1 27 1 1 28
  1 1 29 1 1 30 1 1 31 1 1 32 1 1 33 1 1 34 1 2 230 2 2 220 2 5 230 5 1 220 1 2 230 2 1 220
  17 1 35 102 7 230 9 4 230 4 1 220 1 1 230 3 2 230 3 1 220 1 2 230 2 1 220 36 1 36 31 1 230
  1 1 220 1 2 230 2 1 220 1 2 230 2 3 220 3 1 230 1 2 220 2 1 230 1 1 220 1 3 230 3 1 220 1 1
  230 1 1 220 1 1 230 1 1 220 1 1 230 1 1 220 1 2 230 162 7 230 7 1 220 1 1 230 10 1 220 25 4
  230 5 9 230 10 3 230 4 5 230 48 3 220 63 1 230 1 3 220 3 4 230 46 5 230 5 5 220 5 14 230 15
  1 220 1 2 230 2 1 220 1 2 230 2 1 220 1 3 230 3 3 220 3 1 27 1 1 28 1 1 29 1 3 230 3 1 220
  1 2 230 2 2 220 2 5 230 65 1 7 17 1 9 4 1 230 1 1 220 1 2 230 105 1 7 17 1 9 49 1 230 62 1
  7 17 1 9 111 1 7 17 1 9 111 1 7 17 1 9 128 1 9 111 1 7 17 1 9 8 1 84 1 1 91 102 1 7 17 1 9
  110 2 9 18 1 9 125 1 9 110 2 103 2 1 9 14 4 107 112 2 118 2 1 9 14 4 122 80 2 220 29 1 220
  2 1 220 2 1 216 56 1 129 1 1 130 2 1 132 6 4 130 6 1 130 2 2 230 2 1 9 2 2 230 64 1 220 113
  1 7 2 2 9 84 1 220 720 3 230 951 2 9 32 1 9 158 1 9 11 1 230 204 1 228 144 1 222 1 1 230 1
  1 220 220 1 230 1 1 220 72 1 9 21 8 230 10 1 220 49 5 230 5 6 220 6 2 230 2 1 220 2 2 220 2
  2 230 2 2 220 2 5 230 5 1 220 1 4 230 105 1 7 16 1 9 39 1 230 1 1 220 1 7 230 61 2 9 60 1 7
  12 2 9 69 1 7 153 3 230 4 1 1 1 5 220 5 2 230 2 4 220 4 1 230 2 7 1 11 1 220 7 1 230 4 2
  230 200 2 230 2 1 220 1 7 230 7 1 220 1 2 230 2 1 234 1 1 214 1 1 220 1 1 202 1 37 230 37 1
  232 1 2 228 2 1 220 1 1 218 1 1 230 1 1 233 1 1 220 1 1 230 1 1 220 721 2 230 2 2 1 2 4 230
  4 3 1 3 2 230 6 1 230 4 2 1 2 1 230 1 1 220 1 1 230 1 2 1 2 4 220 4 1 230 3071 3 230 144 1
  9 97 32 230 586 1 218 1 1 228 1 1 232 1 1 222 1 2 224 107 2 8 30166 1 230 5 10 230 42 2 230
  82 2 230 278 1 9 38 1 9 152 1 9 28 18 230 75 3 220 40 1 9 96 1 7 13 1 9 240 1 230 2 2 230 2
  1 220 3 2 230 7 2 230 3 1 230 53 1 9 247 1 9 20273 1 26 770 7 230 7 7 220 7 2 230 975 1 220
  227 1 220 150 5 230 1687 1 220 2 1 230 41 1 230 1 1 1 1 1 220 5 1 9 166 1 230 1 1 220 574 4
  230 391 2 230 155 2 220 2 3 230 3 1 220 1 1 230 1 4 220 53 1 230 1 1 220 1 1 230 1 1 220
  193 1 9 42 1 9 15 1 9 58 1 9 1 1 7 70 3 230 51 2 9 64 1 7 77 1 9 10 1 7 107 1 9 1 1 7 179 1
  7 1 1 9 81 2 7 18 1 9 25 7 230 10 5 230 210 1 9 4 1 7 24 1 230 100 1 9 1 1 7 252 1 9 1 1 7
  127 1 9 119 1 9 1 1 7 116 1 9 270 1 9 1 1 7 259 2 9 6 1 7 157 1 9 84 1 9 19 1 9 82 1 9 422
  1 9 259 1 7 2 2 9 83 1 9 19801 5 1 64 7 230 1216 2 6 19630 1 1 5319 2 216 2 3 1 6 1 226 1 5
  216 13 8 220 10 5 230 5 2 220 32 4 230 152 3 230 3518 7 230 8 17 230 19 7 230 8 2 230 3 5
  230 266 7 230 382 1 230 62 4 230 1508 7 220 116 6 230 6 1 7")).toArray

/-- Characters that nothing composes to: forms that are kept for compatibility, and those that the standard excludes. -/
def uncomposedRanges : Ranges := Ranges.ofGaps
  "306 2 11 2 8 1 122 9 36 3 336 1 578 1 237 4 735 8 124 131 253 2 725 391 3808 1 710 27 3875 1 95
  52733"

/-- The full compatibility decomposition of a code point.  Hangul syllables are taken apart by
arithmetic. -/
def decompose (code : Nat) : List Nat :=
  if code < 128 then [code]
  else if 0xAC00 ≤ code && code < 0xD7A4 then
    let s := code - 0xAC00
    let tail := s % 28
    [0x1100 + s / 588, 0x1161 + s % 588 / 28] ++ (if tail = 0 then [] else [0x11A7 + tail])
  else (decompositions.get? code).getD [code]

/-- The combining class of a code point; 0 for one that stands on its own. -/
def combiningClass (code : Nat) : Nat :=
  if code < 128 then 0
  else
    let i := lastAtMost (fun i => (combiningClasses[i]?.map Prod.fst).getD 0) code
      combiningClasses.size 0 combiningClasses.size
    match combiningClasses[i]? with
    | some (first, size, cls) => if first ≤ code && code < first + size then cls else 0
    | none => 0

/-- Inserts a mark into a run of marks that is sorted by class, after the marks of its class. -/
def insertMark (mark : Nat) : List Nat → List Nat
  | [] => [mark]
  | other :: rest =>
    if combiningClass mark < combiningClass other then mark :: other :: rest
    else other :: insertMark mark rest

/-- Sorts every run of combining marks by class, keeping the order within a class. -/
def orderMarks (run : List Nat) : List Nat → List Nat
  | [] => run
  | code :: rest =>
    if combiningClass code = 0 then run ++ code :: orderMarks [] rest
    else orderMarks (insertMark code run) rest

/-- The composition of two code points, if they have one: the first character whose decomposition is that of the one
followed by the other. -/
def composePair (a b : Nat) : Option Nat :=
  if 0x1100 ≤ a && a < 0x1113 && 0x1161 ≤ b && b < 0x1176 then
    some (0xAC00 + ((a - 0x1100) * 21 + (b - 0x1161)) * 28)
  else if 0xAC00 ≤ a && a < 0xD7A4 && (a - 0xAC00) % 28 == 0 && 0x11A7 < b && b < 0x11C3 then
    some (a + (b - 0x11A7))
  else (decompositions.find? (decompose a ++ [b])).filter fun code => !uncomposedRanges.contains code

/-- Composes a starter with the marks after it: a mark joins the starter unless a mark of the same
or a higher class, or a starter, stands between them.  `kept` holds what did not join, latest
first. -/
def composeFrom (starter : Nat) (kept : List Nat) : List Nat → List Nat
  | [] => starter :: kept.reverse
  | code :: rest =>
    let blocked := match kept with
      | [] => false
      | last :: _ => combiningClass code ≤ combiningClass last
    match if blocked then none else composePair starter code with
    | some joined => composeFrom joined kept rest
    | none =>
      if combiningClass code = 0 then starter :: kept.reverse ++ composeFrom code [] rest
      else composeFrom starter (code :: kept) rest

/-- Composition of a decomposed text: marks before the first starter stay as they are. -/
def composeAll : List Nat → List Nat
  | [] => []
  | code :: rest =>
    if combiningClass code = 0 then composeFrom code [] rest else code :: composeAll rest

/-- The compatibility normal form of an identifier. -/
def normalizeIdentifier (s : String) : String :=
  if s.toList.all (·.toNat < 128) then s
  else
    let decomposed := s.toList.flatMap fun c => decompose c.toNat
    String.ofList ((composeAll (orderMarks [] decomposed)).map Char.ofNat)

end CodeAtlas.Text
