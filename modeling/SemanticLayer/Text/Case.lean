import SemanticLayer.Text.Mark

/-! # Lower case

Lower case in every script, by the full mappings of the Unicode standard: `İ` becomes two
characters, and a capital sigma at the end of a word becomes the final sigma.
-/

namespace SemanticLayer.Text

/-- The code points with the property `Cased`. -/
def casedRuns : Runs := [
  65,26,6,26,47,1,10,1,4,1,5,23,1,31,1,195,1,4,4,208,1,36,7,2,30,5,96,1,42,4,2,2,2,4,1,1,6,1,1,3,1,1,1,20,1,83,1,139,8,
  166,1,38,9,41,2839,38,1,1,5,1,2,43,1,4,672,86,2,6,2178,9,7,43,2,3,64,192,64,278,2,6,2,38,2,6,2,8,1,1,1,1,1,1,1,31,2,
  53,1,7,1,1,3,3,1,7,3,4,2,6,4,13,5,3,1,7,116,1,13,1,16,13,101,1,4,1,2,10,1,1,3,5,6,1,1,1,1,1,1,4,1,6,4,1,2,4,5,5,4,1,
  17,32,3,2,817,52,1814,229,6,4,3,2,12,38,1,1,5,1,30994,46,18,30,132,102,3,4,1,59,5,2,1,1,1,5,24,5,1,3,821,43,1,14,6,80,
  20288,7,12,5,1033,26,6,26,1189,80,96,36,4,36,116,11,1,15,1,7,1,2,1,11,1,15,1,7,1,2,451,1,2,3,1,42,1,9,1221,51,13,51,
  2989,64,21856,64,25984,85,1,71,1,2,2,1,2,2,2,4,1,12,1,1,1,7,1,65,1,4,2,8,1,7,1,28,1,4,1,5,1,1,3,7,1,340,2,25,1,25,1,
  31,1,25,1,31,1,25,1,31,1,25,1,31,1,25,1,8,1844,10,1,20,6,6,261,62,2194,68,2028,26,6,26,6,26]

/-- The code points with the property `Case_Ignorable` beside the marks. -/
def otherIgnorableRuns : Runs := [
  39,1,6,1,11,1,35,1,1,1,71,1,4,1,1,1,4,1,2,2,503,80,116,2,4,1,9,2,1,1,465,1,5,1,148,1,11,6,22,1,35,1,156,1,7,2,40,1,
  228,2,4,1,31,1,9,1,3,1,95,1,7,2,55,1,24,1,142,1,1236,1,127,1,565,1,1754,1,54,1,52,1,611,1,464,6,174,63,13,1,34,37,509,
  1,1,3,11,3,13,3,13,3,13,2,12,1,1,3,8,2,10,1,2,1,2,5,49,5,1,10,1,1,13,1,16,13,3039,2,241,1,191,1,469,1,43,5,5,1,95,4,
  93,3,28438,1,1250,6,270,1,114,1,28,2,98,34,78,1,23,3,103,3,3,2,469,1,22,1,137,1,108,1,21,2,102,5,9,3,20550,17,592,1,
  62,1,2,1,169,1,7,1,6,1,11,1,35,1,1,1,47,1,114,1,21,3,1924,6,1,42,1,9,2306,1,15,1,9058,16,14080,4,1103,13,64,2,1,1,
  16396,4,1,7,1,2,3233,4,5327,8,3765,62,201,7,941,1,1119,1,2735,5,789505,1]

/-- Lower case beyond ASCII: every `step`-th code point from the first to the last moves by the
    last number. -/
def lowerShifts : List (Nat × Nat × Nat × Int) := [
  (192,214,1,32),(216,222,1,32),(256,302,2,1),(306,310,2,1),(313,327,2,1),(330,374,2,1),(376,376,1,-121),(377,381,2,1),
  (385,385,1,210),(386,388,2,1),(390,390,1,206),(391,391,1,1),(393,394,1,205),(395,395,1,1),(398,398,1,79),
  (399,399,1,202),(400,400,1,203),(401,401,1,1),(403,403,1,205),(404,404,1,207),(406,406,1,211),(407,407,1,209),
  (408,408,1,1),(412,412,1,211),(413,413,1,213),(415,415,1,214),(416,420,2,1),(422,422,1,218),(423,423,1,1),
  (425,425,1,218),(428,428,1,1),(430,430,1,218),(431,431,1,1),(433,434,1,217),(435,437,2,1),(439,439,1,219),
  (440,440,1,1),(444,444,1,1),(452,452,1,2),(453,453,1,1),(455,455,1,2),(456,456,1,1),(458,458,1,2),(459,475,2,1),
  (478,494,2,1),(497,497,1,2),(498,500,2,1),(502,502,1,-97),(503,503,1,-56),(504,542,2,1),(544,544,1,-130),
  (546,562,2,1),(570,570,1,10795),(571,571,1,1),(573,573,1,-163),(574,574,1,10792),(577,577,1,1),(579,579,1,-195),
  (580,580,1,69),(581,581,1,71),(582,590,2,1),(880,882,2,1),(886,886,1,1),(895,895,1,116),(902,902,1,38),(904,906,1,37),
  (908,908,1,64),(910,911,1,63),(913,929,1,32),(931,939,1,32),(975,975,1,8),(984,1006,2,1),(1012,1012,1,-60),
  (1015,1015,1,1),(1017,1017,1,-7),(1018,1018,1,1),(1021,1023,1,-130),(1024,1039,1,80),(1040,1071,1,32),(1120,1152,2,1),
  (1162,1214,2,1),(1216,1216,1,15),(1217,1229,2,1),(1232,1326,2,1),(1329,1366,1,48),(4256,4293,1,7264),
  (4295,4295,1,7264),(4301,4301,1,7264),(5024,5103,1,38864),(5104,5109,1,8),(7312,7354,1,-3008),(7357,7359,1,-3008),
  (7680,7828,2,1),(7838,7838,1,-7615),(7840,7934,2,1),(7944,7951,1,-8),(7960,7965,1,-8),(7976,7983,1,-8),
  (7992,7999,1,-8),(8008,8013,1,-8),(8025,8031,2,-8),(8040,8047,1,-8),(8072,8079,1,-8),(8088,8095,1,-8),
  (8104,8111,1,-8),(8120,8121,1,-8),(8122,8123,1,-74),(8124,8124,1,-9),(8136,8139,1,-86),(8140,8140,1,-9),
  (8152,8153,1,-8),(8154,8155,1,-100),(8168,8169,1,-8),(8170,8171,1,-112),(8172,8172,1,-7),(8184,8185,1,-128),
  (8186,8187,1,-126),(8188,8188,1,-9),(8486,8486,1,-7517),(8490,8490,1,-8383),(8491,8491,1,-8262),(8498,8498,1,28),
  (8544,8559,1,16),(8579,8579,1,1),(9398,9423,1,26),(11264,11311,1,48),(11360,11360,1,1),(11362,11362,1,-10743),
  (11363,11363,1,-3814),(11364,11364,1,-10727),(11367,11371,2,1),(11373,11373,1,-10780),(11374,11374,1,-10749),
  (11375,11375,1,-10783),(11376,11376,1,-10782),(11378,11378,1,1),(11381,11381,1,1),(11390,11391,1,-10815),
  (11392,11490,2,1),(11499,11501,2,1),(11506,11506,1,1),(42560,42604,2,1),(42624,42650,2,1),(42786,42798,2,1),
  (42802,42862,2,1),(42873,42875,2,1),(42877,42877,1,-35332),(42878,42886,2,1),(42891,42891,1,1),(42893,42893,1,-42280),
  (42896,42898,2,1),(42902,42920,2,1),(42922,42922,1,-42308),(42923,42923,1,-42319),(42924,42924,1,-42315),
  (42925,42925,1,-42305),(42926,42926,1,-42308),(42928,42928,1,-42258),(42929,42929,1,-42282),(42930,42930,1,-42261),
  (42931,42931,1,928),(42932,42946,2,1),(42948,42948,1,-48),(42949,42949,1,-42307),(42950,42950,1,-35384),
  (42951,42953,2,1),(42960,42960,1,1),(42966,42968,2,1),(42997,42997,1,1),(65313,65338,1,32),(66560,66599,1,40),
  (66736,66771,1,40),(66928,66938,1,39),(66940,66954,1,39),(66956,66962,1,39),(66964,66965,1,39),(68736,68786,1,64),
  (71840,71871,1,32),(93760,93791,1,32),(125184,125217,1,34)]

/-- Lower case of one character, standing alone. -/
def lowerChar (c : Char) : List Char :=
  if c.toNat < 128 then [c.toLower]
  else if c = 'İ' then ['i', Char.ofNat 775]
  else
    match lowerShifts.find? fun (lo, hi, step, _) =>
      lo ≤ c.toNat && c.toNat ≤ hi && (c.toNat - lo) % step == 0 with
    | some (_, _, _, shift) => [Char.ofNat (c.toNat + shift).toNat]
    | none => [c]

def nextIsCased (cs : List Char) : Bool :=
  match cs.dropWhile fun c => markRuns.has c || otherIgnorableRuns.has c with
  | [] => false
  | c :: _ => casedRuns.has c

/-- Lower case of a text. `before` holds the characters already passed, the last one first. -/
def lowerFrom (before : List Char) : List Char → List Char
  | [] => []
  | c :: rest =>
    let here :=
      if c = 'Σ' then
        if nextIsCased before && !nextIsCased rest then ['ς'] else ['σ']
      else lowerChar c
    here ++ lowerFrom (c :: before) rest

def lower (s : String) : String := String.ofList (lowerFrom [] s.toList)

def lowerAscii (s : String) : String := String.ofList (s.toList.map Char.toLower)

def upperAscii (s : String) : String := String.ofList (s.toList.map Char.toUpper)

def sameAscii (s t : String) : Bool := lowerAscii s == lowerAscii t

end SemanticLayer.Text
