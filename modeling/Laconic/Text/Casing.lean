import Laconic.Text.Letter

/-!
# Upper and lower case

Full case mapping of whole texts.  Most characters map to one character;
those of the two lists of expansions map to several.  A capital sigma that
ends a word maps to the final small sigma, which needs a look at the
characters around it.

A run `(first, last, stride, image)` says that the characters `first`,
`first + stride`, … up to `last` map to `image`, `image + stride`, ….
-/

namespace Laconic

/-- Runs of characters with evenly spaced images. -/
abbrev CaseRuns := List (Nat × Nat × Nat × Nat)

/-- The image of a code point under the first run that holds it. -/
def CaseRuns.image? (runs : CaseRuns) (n : Nat) : Option Nat :=
  (runs.find? fun (first, last, stride, _) =>
    first ≤ n && n ≤ last && (n - first) % stride == 0).map
      fun (first, _, _, image) => image + (n - first)

/-- Characters with one image each. -/
def CaseRuns.ofPairs : List Char → CaseRuns
  | c :: image :: rest => (c.toNat, c.toNat, 1, image.toNat) :: ofPairs rest
  | _ => []

def CaseRuns.inverse (runs : CaseRuns) : CaseRuns :=
  runs.map fun (first, last, stride, image) => (image, image + (last - first), stride, first)

/-- Runs by their first and last characters and the image of the first one. -/
def CaseRuns.ofEnds (stride : Nat) : List Char → CaseRuns
  | first :: last :: image :: rest =>
    (first.toNat, last.toNat, stride, image.toNat) :: ofEnds stride rest
  | _ => []

/-- Characters by texts that begin with them and go on with their images. -/
def expansions (texts : List String) : List (Char × List Char) :=
  texts.filterMap fun text => text.toList.head?.map (·, text.toList.tail)

/-- Small letters with their capitals, where each maps to the other. -/
def caseRuns : CaseRuns :=
  CaseRuns.ofEnds 1 (String.toList (
    "azAàöÀøþØȿɀⱾɖɗƉʊʋƱͻͽϽέίΈαρΑσϋΣύώΎаяАѐџЀաֆԱაჺᲐჽჿᲽᏸᏽᏰἀἇἈἐἕἘἠἧἨἰἷἸὀὅὈὠὧὨὰάᾺὲήῈὶίῚὸόῸὺύῪὼώῺᾰᾱᾸ" ++
    "ῐῑῘῠῡῨⅰⅿⅠⓐⓩⒶⰰⱟⰀⴀⴥႠꭰꮿᎠａｚＡ𐐨𐑏𐐀𐓘𐓻𐒰𐳀𐳲𐲀𐵰𐶅𐵐𑣀𑣟𑢠𖹠𖹿𖹀𖺻𖻓𖺠𞤢𞥃𞤀")) ++
  CaseRuns.ofEnds 2 (String.toList (
    "āįĀĳķĲĺňĹŋŷŊźžŹƃƅƂơƥƠƴƶƳǎǜǍǟǯǞǹȟǸȣȳȢɇɏɆͱͳͰϙϯϘѡҁѠҋҿҊӂӎӁӑԯӐḁẕḀạỿẠὑὗὙⱨⱬⱧⲁⳣⲀⳬⳮⳫꙁꙭꙀꚁꚛꚀꜣꜯꜢꜳꝯꜲꝺꝼꝹ" ++
    "ꝿꞇꝾꞑꞓꞐꞗꞩꞖꞵꟃꞴꟈꟊꟇ\ua7cd\ua7db\ua7cc𐖗𐖻𐕰𐖘𐖠𐕱𐖤𐖰𐕽𐖴𐖸𐖍")) ++
  CaseRuns.ofPairs (String.toList (
    "ÿŸƀɃƈƇƌƋƒƑƕǶƙƘƚȽƛ\ua7dcƞȠƨƧƭƬưƯƹƸƽƼƿǷǆǄǉǇǌǊǝƎǳǱǵǴȼȻɂɁɐⱯɑⱭɒⱰɓƁɔƆəƏɛƐɜꞫɠƓɡꞬɣƔɤ\ua7cbɥꞍɦꞪ" ++
    "ɨƗɩƖɪꞮɫⱢɬꞭɯƜɱⱮɲƝɵƟɽⱤʀƦʂꟅʃƩʇꞱʈƮʉɄʌɅʒƷʝꞲʞꞰͷͶάΆόΌϗϏϲϹϳͿϸϷϻϺӏӀ\u1c8a\u1c89ᵹꝽᵽⱣᶎꟆῥῬⅎℲↄↃⱡⱠⱥȺ" ++
    "ⱦȾⱳⱲⱶⱵⳳⳲⴧჇⴭჍꞌꞋꞔꟄꟶꟵꭓꞳ𐖼𐖕"))

def upperRuns : CaseRuns := caseRuns ++ .ofEnds 1 ['ᲃ', 'ᲄ', 'С'] ++
  CaseRuns.ofPairs "µΜıIſSǅǄǈǇǋǊǲǱ\u0345ΙςΣϐΒϑΘϕΦϖΠϰΚϱΡϵΕᲀВᲁДᲂОᲅТᲆЪᲇѢᲈꙊẛṠιΙ".toList

def upperExpansions : List (Char × List Char) := expansions [
  "ßSS", "ŉʼN", "ǰJ\u030c", "ΐΙ\u0308\u0301", "ΰΥ\u0308\u0301", "ևԵՒ", "ẖH\u0331", "ẗT\u0308",
  "ẘW\u030a", "ẙY\u030a", "ẚAʾ", "ὐΥ\u0313", "ὒΥ\u0313\u0300", "ὔΥ\u0313\u0301", "ὖΥ\u0313\u0342",
  "ᾲᾺΙ", "ᾳΑΙ", "ᾴΆΙ", "ᾶΑ\u0342", "ᾷΑ\u0342Ι", "ᾼΑΙ", "ῂῊΙ", "ῃΗΙ", "ῄΉΙ", "ῆΗ\u0342", "ῇΗ\u0342Ι",
  "ῌΗΙ", "ῒΙ\u0308\u0300", "ΐΙ\u0308\u0301", "ῖΙ\u0342", "ῗΙ\u0308\u0342", "ῢΥ\u0308\u0300",
  "ΰΥ\u0308\u0301", "ῤΡ\u0313", "ῦΥ\u0342", "ῧΥ\u0308\u0342", "ῲῺΙ", "ῳΩΙ", "ῴΏΙ", "ῶΩ\u0342",
  "ῷΩ\u0342Ι", "ῼΩΙ", "ﬀFF", "ﬁFI", "ﬂFL", "ﬃFFI", "ﬄFFL", "ﬅST", "ﬆST", "ﬓՄՆ", "ﬔՄԵ", "ﬕՄԻ", "ﬖՎՆ",
  "ﬗՄԽ"] ++
  -- the vowels with an iota below them
  [(0x1F80, 0x1F08), (0x1F90, 0x1F28), (0x1FA0, 0x1F68)].flatMap fun (first, image) =>
    (List.range 16).map fun i => (Char.ofNat (first + i), [Char.ofNat (image + i % 8), 'Ι'])

def lowerRuns : CaseRuns := caseRuns.inverse ++ .ofEnds 1 "ᾈᾏᾀᾘᾟᾐᾨᾯᾠ".toList ++
  CaseRuns.ofPairs "ǅǆǈǉǋǌǲǳϴθẞßᾼᾳῌῃῼῳΩωKkÅå".toList

def lowerExpansions : List (Char × List Char) := expansions ["İi\u0307"]

/-- The characters of the property `Cased`. -/
def casedRanges : CodeRanges := .ofRuns 0 [
  65, 26, 6, 26, 47, 1, 10, 1, 4, 1, 5, 23, 1, 31, 1, 195, 1, 4, 4, 208, 2, 35, 7, 2, 30, 5, 96, 1,
  42, 4, 2, 2, 2, 4, 1, 1, 6, 1, 1, 3, 1, 1, 1, 20, 1, 83, 1, 139, 8, 166, 1, 38, 9, 41, 2839, 38,
  1, 1, 5, 1, 2, 43, 1, 4, 672, 86, 2, 6, 2178, 11, 5, 43, 2, 3, 64, 192, 64, 278, 2, 6, 2, 38, 2,
  6, 2, 8, 1, 1, 1, 1, 1, 1, 1, 31, 2, 53, 1, 7, 1, 1, 3, 3, 1, 7, 3, 4, 2, 6, 4, 13, 5, 3, 1, 7,
  116, 1, 13, 1, 16, 13, 101, 1, 4, 1, 2, 10, 1, 1, 3, 5, 6, 1, 1, 1, 1, 1, 1, 4, 1, 6, 4, 1, 2, 4,
  5, 5, 4, 1, 17, 32, 3, 2, 817, 52, 1814, 229, 6, 4, 3, 2, 12, 38, 1, 1, 5, 1, 30994, 46, 18, 30,
  132, 102, 3, 4, 1, 77, 20, 6, 1, 3, 821, 43, 1, 14, 6, 80, 20288, 7, 12, 5, 1033, 26, 6, 26, 1189,
  80, 96, 36, 4, 36, 116, 11, 1, 15, 1, 7, 1, 2, 1, 11, 1, 15, 1, 7, 1, 2, 451, 1, 2, 3, 1, 42, 1,
  9, 1221, 51, 13, 51, 93, 22, 10, 22, 2842, 64, 21856, 64, 32, 25, 2, 25, 25900, 85, 1, 71, 1, 2,
  2, 1, 2, 2, 2, 4, 1, 12, 1, 1, 1, 7, 1, 65, 1, 4, 2, 8, 1, 7, 1, 28, 1, 4, 1, 5, 1, 1, 3, 7, 1,
  340, 2, 25, 1, 25, 1, 31, 1, 25, 1, 31, 1, 25, 1, 31, 1, 25, 1, 31, 1, 25, 1, 8, 1844, 10, 1, 20,
  6, 6, 261, 62, 2194, 68, 2028, 26, 6, 26, 6, 26]

def caseIgnorableRanges : CodeRanges := .ofRuns 0 [
  39, 1, 6, 1, 11, 1, 35, 1, 1, 1, 71, 1, 4, 1, 1, 1, 4, 1, 2, 2, 503, 192, 4, 2, 4, 1, 9, 2, 1, 1,
  251, 7, 207, 1, 5, 1, 49, 45, 1, 1, 1, 2, 1, 2, 1, 1, 44, 1, 11, 6, 10, 11, 1, 1, 35, 1, 10, 21,
  16, 1, 101, 8, 1, 10, 1, 4, 33, 1, 1, 1, 30, 27, 91, 11, 58, 11, 4, 1, 2, 1, 24, 24, 43, 3, 44, 1,
  7, 2, 5, 9, 41, 58, 55, 1, 1, 1, 4, 8, 4, 1, 3, 7, 10, 2, 13, 1, 15, 1, 58, 1, 4, 4, 8, 1, 20, 2,
  26, 1, 2, 2, 57, 1, 4, 2, 4, 2, 2, 3, 3, 1, 30, 2, 3, 1, 11, 2, 57, 1, 4, 5, 1, 2, 4, 1, 20, 2,
  22, 6, 1, 1, 58, 1, 2, 1, 1, 4, 8, 1, 7, 2, 11, 2, 30, 1, 61, 1, 12, 1, 50, 1, 3, 1, 55, 1, 1, 3,
  5, 3, 1, 4, 7, 2, 11, 2, 29, 1, 58, 1, 2, 1, 6, 1, 5, 2, 20, 2, 28, 2, 57, 2, 4, 4, 8, 1, 20, 2,
  29, 1, 72, 1, 7, 3, 1, 1, 90, 1, 2, 7, 11, 9, 98, 1, 2, 9, 9, 1, 1, 7, 73, 2, 27, 1, 1, 1, 1, 1,
  55, 14, 1, 5, 1, 2, 5, 11, 1, 36, 9, 1, 102, 4, 1, 6, 1, 2, 2, 2, 25, 2, 4, 3, 16, 4, 13, 1, 2, 2,
  6, 1, 15, 1, 94, 1, 608, 3, 946, 3, 29, 2, 30, 2, 30, 2, 64, 2, 1, 7, 8, 1, 2, 11, 3, 1, 5, 1, 45,
  5, 51, 1, 65, 2, 34, 1, 118, 3, 4, 2, 9, 1, 6, 3, 219, 2, 2, 1, 58, 1, 1, 7, 1, 1, 1, 1, 2, 8, 6,
  10, 2, 1, 39, 1, 8, 46, 2, 12, 20, 4, 48, 1, 1, 5, 1, 1, 5, 1, 40, 9, 12, 2, 32, 4, 2, 2, 1, 3,
  56, 1, 1, 2, 3, 1, 1, 3, 58, 8, 2, 2, 64, 6, 82, 3, 1, 13, 1, 7, 4, 1, 6, 1, 3, 2, 50, 63, 13, 1,
  34, 101, 445, 1, 1, 3, 11, 3, 13, 3, 13, 3, 13, 2, 12, 5, 8, 2, 10, 1, 2, 1, 2, 5, 49, 5, 1, 10,
  1, 1, 13, 1, 16, 13, 51, 33, 2955, 2, 113, 3, 125, 1, 15, 1, 96, 32, 47, 1, 469, 1, 36, 4, 3, 5,
  5, 1, 93, 6, 93, 3, 28438, 1, 1250, 6, 270, 1, 98, 4, 1, 10, 1, 1, 28, 4, 80, 2, 14, 34, 78, 1,
  23, 3, 102, 4, 3, 2, 8, 1, 3, 1, 4, 1, 25, 2, 5, 1, 151, 2, 26, 18, 13, 1, 38, 8, 25, 11, 46, 3,
  48, 1, 2, 4, 2, 2, 17, 1, 21, 2, 66, 6, 2, 2, 2, 2, 12, 1, 8, 1, 35, 1, 11, 1, 51, 1, 1, 3, 2, 2,
  5, 2, 1, 1, 27, 1, 14, 2, 5, 2, 1, 1, 100, 5, 9, 3, 121, 1, 2, 1, 4, 1, 20272, 1, 147, 17, 573,
  16, 3, 1, 12, 16, 34, 1, 2, 1, 169, 1, 7, 1, 6, 1, 11, 1, 35, 1, 1, 1, 47, 1, 45, 2, 67, 1, 21, 3,
  513, 1, 226, 1, 149, 5, 1029, 6, 1, 42, 1, 9, 582, 3, 1, 2, 5, 4, 40, 3, 4, 1, 165, 2, 573, 4, 38,
  1, 26, 5, 1, 1, 315, 2, 24, 1, 52, 6, 70, 11, 49, 4, 123, 1, 54, 15, 41, 1, 2, 2, 10, 3, 49, 4, 2,
  2, 2, 1, 4, 1, 10, 1, 50, 3, 36, 5, 1, 8, 62, 1, 12, 2, 52, 9, 10, 4, 2, 1, 95, 3, 2, 1, 1, 2, 6,
  1, 2, 1, 157, 1, 3, 8, 21, 2, 57, 2, 3, 1, 37, 7, 3, 5, 70, 6, 13, 1, 1, 1, 1, 1, 14, 2, 85, 8, 2,
  3, 1, 1, 23, 1, 84, 6, 1, 1, 4, 2, 1, 2, 238, 4, 6, 2, 1, 2, 27, 2, 85, 8, 2, 1, 1, 2, 106, 1, 1,
  1, 2, 6, 1, 1, 101, 1, 1, 1, 2, 4, 1, 5, 259, 9, 1, 2, 256, 2, 1, 1, 4, 1, 144, 4, 2, 2, 4, 1, 32,
  10, 40, 6, 2, 4, 8, 1, 9, 6, 2, 3, 46, 13, 1, 2, 198, 1, 1, 3, 1, 1, 201, 7, 1, 6, 1, 1, 82, 22,
  2, 7, 1, 2, 1, 2, 122, 6, 3, 1, 1, 2, 1, 7, 1, 1, 72, 2, 3, 1, 1, 1, 65, 1, 281, 2, 11, 2, 52, 5,
  5, 1, 1, 1, 23, 1, 5333, 17, 6, 15, 11464, 12, 3, 3, 2496, 5, 59, 7, 9, 4, 508, 3, 40, 2, 482, 1,
  63, 17, 64, 2, 1, 2, 13, 2, 16380, 4, 1, 7, 1, 2, 3230, 2, 1, 4, 4700, 46, 2, 23, 544, 3, 9, 16,
  2, 7, 30, 4, 148, 3, 1979, 55, 4, 50, 8, 1, 14, 1, 22, 5, 1, 15, 1360, 7, 1, 17, 2, 7, 1, 2, 1, 5,
  5, 62, 33, 1, 160, 14, 368, 1, 61, 4, 507, 5, 254, 2, 243, 1, 2, 1, 7, 2, 5, 1, 9, 1, 464, 7, 109,
  8, 2735, 5, 789505, 1, 30, 96, 128, 240]

def isCased (c : Char) : Bool := casedRanges.contains c.toNat

/-- Whether a character is passed over when the case of its word is asked. -/
def isCaseIgnorable (c : Char) : Bool := caseIgnorableRanges.contains c.toNat

/-- The image of a character: its expansion, else its single image, else
itself. -/
def mapCase (runs : CaseRuns) (expansions : List (Char × List Char)) (c : Char) : List Char :=
  match expansions.lookup c with
  | some image => image
  | none => [((runs.image? c.toNat).map Char.ofNat).getD c]

/-- Whether the first character that is not passed over has case. -/
def startsCased (cs : List Char) : Bool :=
  match cs.dropWhile isCaseIgnorable with
  | c :: _ => isCased c
  | [] => false

/-- Lower-case images, left to right; `before` holds the characters already
mapped, last first. -/
def lowerFrom (before : List Char) : List Char → List Char
  | [] => []
  | c :: rest =>
    let image :=
      if c == 'Σ' then
        if startsCased before && !startsCased rest then ['ς'] else ['σ']
      else mapCase lowerRuns lowerExpansions c
    image ++ lowerFrom (c :: before) rest

def lowercase (s : String) : String := String.ofList (lowerFrom [] s.toList)

def uppercase (s : String) : String :=
  String.ofList (s.toList.flatMap (mapCase upperRuns upperExpansions))

end Laconic
