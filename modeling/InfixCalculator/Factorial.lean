import InfixCalculator.Numeral

namespace InfixCalculator

/-! The factorial of a double. The factorials within the range of doubles stand in a table, and all
others are infinite. -/

inductive FactorialError where
  | negative (value : Float)
  | fractional (value : Float)
deriving DecidableEq

def FactorialError.message : FactorialError → String
  | .negative value =>
      s!"Factorial only defined for non-negative integers, but found {Numeral.text value}."
  | .fractional value =>
      s!"Factorial only defined for integers, but found fractional {Numeral.text value}."

/-- The factorials of the natural numbers in order, each as its leading digits and the number of zeros
that stand for the digits behind them. -/
def roundedFactorials : List (Nat × Nat) :=
  [(1, 0), (1, 0), (2, 0), (6, 0), (24, 0), (120, 0), (720, 0), (5040, 0), (40320, 0), (362880, 0),
    (3628800, 0), (39916800, 0), (479001600, 0), (6227020800, 0), (87178291200, 0),
    (1307674368000, 0), (20922789888000, 0), (355687428096000, 0), (6402373705728000, 0),
    (121645100408832, 3), (243290200817664, 4), (5109094217170944, 4), (11240007277776077, 5),
    (2585201673888498, 7), (6204484017332394, 8), (15511210043330986, 9), (40329146112660565, 10),
    (10888869450418352, 12), (30488834461171387, 13), (8841761993739702, 15),
    (26525285981219107, 16), (8222838654177922, 18), (2631308369336935, 20), (8683317618811886, 21),
    (29523279903960416, 22), (10333147966386145, 24), (37199332678990125, 25),
    (13763753091226346, 27), (5230226174666011, 29), (20397882081197444, 30),
    (8159152832478977, 32), (3345252661316381, 34), (140500611775288, 37), (6041526306337383, 37),
    (2658271574788449, 39), (11962222086548019, 40), (5502622159812089, 42),
    (25862324151116818, 43), (12413915592536073, 45), (6082818640342675, 47),
    (30414093201713376, 48), (15511187532873822, 50), (8065817517094388, 52),
    (42748832840600255, 53), (2308436973392414, 56), (12696403353658276, 57),
    (7109985878048635, 59), (40526919504877214, 60), (23505613312828785, 62),
    (13868311854568984, 64), (832098711274139, 67), (5075802138772248, 68), (3146997326038794, 70),
    (198260831540444, 73), (12688693218588417, 73), (8247650592082472, 75), (5443449390774431, 77),
    (3647111091818868, 79), (24800355424368305, 80), (1711224524281413, 83),
    (11978571669969892, 84), (8504785885678623, 86), (61234458376886085, 87),
    (44701154615126844, 89), (3307885441519386, 92), (248091408113954, 95), (18854947016660504, 95),
    (14518309202828587, 97), (11324281178206297, 99), (8946182130782976, 101),
    (7156945704626381, 103), (5797126020747368, 105), (4753643337012842, 107),
    (3945523969720659, 109), (3314240134565353, 111), (281710411438055, 114),
    (24227095383672734, 114), (2107757298379528, 117), (18548264225739844, 118),
    (1650795516090846, 121), (14857159644817615, 122), (1352001527678403, 125),
    (12438414054641308, 126), (11567725070816416, 128), (1087366156656743, 131),
    (1032997848823906, 133), (9916779348709496, 134), (9619275968248212, 136),
    (9426890448883248, 138), (9332621544394415, 140), (9332621544394415, 142),
    (942594775983836, 145), (9614466715035127, 146), (990290071648618, 149),
    (10299016745145628, 150), (1081396758240291, 153), (11462805637347084, 154),
    (1226520203196138, 157), (1324641819451829, 159), (14438595832024937, 160),
    (1588245541522743, 163), (17629525510902446, 164), (1974506857221074, 167),
    (22311927486598138, 168), (25435597334721877, 170), (2925093693493016, 173),
    (3393108684451898, 175), (3969937160808721, 177), (4684525849754291, 179),
    (5574585761207606, 181), (6689502913449127, 183), (8094298525273444, 185),
    (9875044200833601, 187), (1214630436702533, 190), (1506141741511141, 192),
    (1882677176888926, 194), (2372173242880047, 196), (30126600184576594, 197),
    (3856204823625804, 200), (4974504222477287, 202), (6466855489220474, 204),
    (847158069087882, 207), (11182486511960043, 208), (14872707060906857, 210),
    (19929427461615188, 212), (26904727073180504, 214), (3659042881952549, 217),
    (5012888748274992, 219), (6917786472619489, 221), (9615723196941089, 223),
    (13462012475717526, 225), (1898143759076171, 228), (2695364137888163, 230),
    (3854370717180073, 232), (55502938327393044, 233), (8047926057471992, 236),
    (11749972043909107, 238), (1727245890454639, 241), (25563239178728654, 242),
    (380892263763057, 246), (5713383956445855, 247), (862720977423324, 250),
    (13113358856834524, 251), (20063439050956823, 253), (30897696138473508, 255),
    (4789142901463394, 258), (7471062926282894, 260), (11729568794264145, 262),
    (1853271869493735, 265), (29467022724950384, 266), (47147236359920616, 268),
    (7590705053947219, 271), (12296942187394494, 273), (20044015765453026, 275),
    (3287218585534296, 278), (5423910666131589, 280), (9003691705778438, 282),
    (1503616514864999, 285), (25260757449731984, 286), (4269068009004705, 289),
    (7257415615307999, 291)]

/-- The factorial from the table; there is none beyond it. Multiplied out in doubles, the factorials
would drift from that of 28 on. -/
def tabulatedFactorial? (n : Nat) : Option Float :=
  roundedFactorials[n]?.map fun (digits, zeros) => Binary64.nearest (digits * Nat.pow 10 zeros) 1

def factorial (x : Float) : Except FactorialError Float :=
  if x < 0 then .error (.negative x)
  else if Binary64.isWhole x = false then .error (.fractional x)
  else
    match (Binary64.natural? x).bind tabulatedFactorial? with
    | some product => .ok product
    | none => .ok Binary64.infinity

end InfixCalculator
