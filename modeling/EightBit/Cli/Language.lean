import EightBit.Text.Utf8

/-!
# Language tags

The name of a language: a language code, and optionally a script, a region, variants and extensions,
with hyphens or underscores between them.

* `LanguageTag.check`: whether a text is a language tag, and one of a known language.
-/

namespace EightBit

/-- Why a text is no tag of a known language. -/
inductive LanguageError
  | malformed
  /-- A part has the right form but no meaning. -/
  | unknown (part : Text)
deriving DecidableEq, Repr

/-- The text of an error. A part needs no escapes between its quotes. -/
def LanguageError.message : LanguageError → Text
  | malformed => "language: tag is not well-formed"
  | unknown part =>
    ("language: subtag \"" : Text) ++ part ++ ("\" is well-formed but unknown" : Text)

namespace LanguageTag

/-- The words of some lines. -/
def words (lines : List String) : List Text := lines.flatMap fun line => (Text.ofString line).split 0x20

/-- The language codes of two letters. -/
def languages : List Text := words [
  "aa ab ae af ak am an ar as av ay az ba be bg bh bi bm bn bo br bs ca ce ch co cr cs cu cv cy da de",
  "dv dz ee el en eo es et eu fa ff fi fj fo fr fy ga gd gl gn gu gv ha he hi ho hr ht hu hy hz ia id",
  "ie ig ii ik in io is it iu iw ja ji jv jw ka kg ki kj kk kl km kn ko kr ks ku kv kw ky la lb lg li",
  "ln lo lt lu lv mg mh mi mk ml mn mo mr ms mt my na nb nd ne ng nl nn no nr nv ny oc oj om or os pa",
  "pi pl ps pt qu rm rn ro ru rw sa sc sd se sg sh si sk sl sm sn so sq sr ss st su sv sw ta te tg th",
  "ti tk tl tn to tr ts tt tw ty ug uk ur uz ve vi vo wa wo xh yi yo za zh zu"]

/-- The region codes of two letters. -/
def regions : List Text := words [
  "AA AC AD AE AF AG AI AL AM AN AO AQ AR AS AT AU AW AX AZ BA BB BD BE BF BG BH BI BJ BL BM BN BO BQ",
  "BR BS BT BU BV BW BY BZ CA CC CD CF CG CH CI CK CL CM CN CO CP CQ CR CS CT CU CV CW CX CY CZ DD DE",
  "DG DJ DK DM DO DY DZ EA EC EE EG EH ER ES ET EU EZ FI FJ FK FM FO FQ FR FX GA GB GD GE GF GG GH GI",
  "GL GM GN GP GQ GR GS GT GU GW GY HK HM HN HR HT HU HV IC ID IE IL IM IN IO IQ IR IS IT JE JM JO JP",
  "JT KE KG KH KI KM KN KP KR KW KY KZ LA LB LC LI LK LR LS LT LU LV LY MA MC MD ME MF MG MH MI MK ML",
  "MM MN MO MP MQ MR MS MT MU MV MW MX MY MZ NA NC NE NF NG NH NI NL NO NP NQ NR NT NU NZ OM PA PC PE",
  "PF PG PH PK PL PM PN PR PS PT PU PW PY PZ QA QM QN QO QP QQ QR QS QT QU QV QW QX QY QZ RE RH RO RS",
  "RU RW SA SB SC SD SE SG SH SI SJ SK SL SM SN SO SR SS ST SU SV SX SY SZ TA TC TD TF TG TH TJ TK TL",
  "TM TN TO TP TR TT TV TW TZ UA UG UK UM UN US UY UZ VA VC VD VE VG VI VN VU WF WK WS XA XB XC XD XE",
  "XF XG XH XI XJ XK XL XM XN XO XP XQ XR XS XT XU XV XW XX XY XZ YD YE YT YU ZA ZM ZR ZW ZZ"]

/-- Tags that are known as a whole. -/
def wholes : List Text := words [
  "art-lojban i-ami i-bnn i-hak i-klingon i-lux i-navajo i-pwn i-tao i-tay i-tsu no-bok no-nyn",
  "sgn-be-fr sgn-be-nl sgn-ch-de zh-guoyu zh-hakka zh-min-nan zh-xiang cel-gaulish en-gb-oed",
  "i-default i-enochian i-mingo zh-min root en-us-posix"]

/-- Whether a byte is an ASCII letter. -/
def isLetter (b : UInt8) : Bool := (0x41 ≤ b && b ≤ 0x5A) || (0x61 ≤ b && b ≤ 0x7A)

/-- Whether a byte is an ASCII digit. -/
def isDigit (b : UInt8) : Bool := 0x30 ≤ b && b ≤ 0x39

/-- Whether a part has the right form: one to eight letters and digits. -/
def isPart (part : Text) : Bool :=
  1 ≤ part.length && part.length ≤ 8 && part.all fun b => isLetter b || isDigit b

/-- The first of two problems, unless only the second one is about the form. -/
def worse (a b : Option LanguageError) : Option LanguageError :=
  if b = some .malformed then b else a.or b

/-- What is wrong with a language code. The codes of three letters are all taken for known. -/
def languageFault? (part : Text) : Option LanguageError :=
  if !part.all isLetter then some .malformed
  else if part.length = 2 ∧ !languages.contains part.toLower then some (.unknown part.toLower)
  else none

/-- What is wrong with a region code. The numeric codes are all taken for known. -/
def regionFault? (part : Text) : Option LanguageError :=
  if part.length = 3 ∧ part.all isDigit then none
  else if !part.all isLetter then some .malformed
  else if part.length = 2 ∧ !regions.contains part.toUpper then some (.unknown part.toUpper)
  else none

/-- Whether every part of one byte has a longer part after it, where `x` comes last and has parts of any
length after it. -/
def areExtensions : List Text → Bool
  | [] => true
  | part :: rest =>
    if part.length ≠ 1 then areExtensions rest
    else if part.toLower == ("x" : Text) then !rest.isEmpty
    else (rest.head?.any fun next => 2 ≤ next.length) && areExtensions rest

/-- What is wrong with the parts after the variants. -/
def extensionFault? (parts : List Text) : Option LanguageError :=
  match parts with
  | [] => none
  | part :: _ => if part.length = 1 ∧ areExtensions parts then none else some .malformed

/-- What is wrong with the parts after the script. -/
def regionalFault? (parts : List Text) : Option LanguageError :=
  let rest := fun (parts : List Text) => extensionFault? (parts.dropWhile fun part => 4 ≤ part.length)
  match parts with
  | [] => none
  | part :: others =>
    if part.length = 2 ∨ part.length = 3 then worse (regionFault? part) (rest others) else rest parts

/-- What is wrong with the parts after the language code and its extensions. -/
def scriptFault? (parts : List Text) : Option LanguageError :=
  match parts with
  | [] => none
  | part :: others =>
    if part.length = 4 ∧ part.head?.any isLetter then
      if part.all isLetter then regionalFault? others else some .malformed
    else regionalFault? parts

/-- What is wrong with the parts after the language code. -/
def localFault? : List Text → Option LanguageError
  | [] => none
  | part :: others =>
    if part.length = 3 ∧ part.head?.any isLetter then worse (languageFault? part) (localFault? others)
    else scriptFault? (part :: others)

/-- What is wrong with the parts of a tag. -/
def partsFault? (parts : List Text) : Option LanguageError :=
  if !parts.all isPart then some .malformed
  else
    match parts with
    | [] => some .malformed
    | part :: others =>
      if part.toLower == ("x" : Text) then extensionFault? parts
      else if part.length = 2 ∨ part.length = 3 then
        worse (languageFault? part) (localFault? others)
      else some .malformed

/-- What prevents a text from being the tag of a known language. -/
def check (t : Text) : Option LanguageError :=
  let t := t.map fun b => if b = 0x5F then 0x2D else b
  if wholes.contains (Text.toLower t) then none else partsFault? (Text.split 0x2D t)

end LanguageTag

end EightBit
