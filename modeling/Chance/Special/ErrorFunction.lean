/-!
# The error function

`erf z` below a half and `erfc z = 1 - erf z` above, by quotients of polynomials.  Below a half
`erf z` is `z` times a quotient; above, `erfc z` is `e^(-z²) / z` times a quotient, one to each
piece of the line.  A piece has a constant `base`, good to nine places, and in `rest` what is
missing of the constant.  Every value is good to about `1e-10` of itself.
-/

namespace Chance

/-! ## Quotients of polynomials -/

/-- a quotient of two polynomials, the lowest coefficient first -/
structure Quotient where
  numerator : List Float
  denominator : List Float

/-- the value of a polynomial, from its highest coefficient inwards -/
def polynomialAt (cs : List Float) (z : Float) : Float := cs.foldr (fun c s => c + z * s) 0.0

namespace Quotient

/-- the value of the quotient at a point -/
def eval (q : Quotient) (z : Float) : Float :=
  polynomialAt q.numerator z / polynomialAt q.denominator z

/-- a multiple of the value, the factor applied before the division -/
def evalTimes (q : Quotient) (k z : Float) : Float :=
  k * polynomialAt q.numerator z / polynomialAt q.denominator z

end Quotient

/-! ## Below a half -/

/-- what `1.125` misses of `erf z / z` -/
def erfQuotient : Quotient :=
  ⟨[0.0033791670955125737, -0.0007369565304816795, -0.3747323373929196, 0.08174424487335873,
    -0.04210893199365486, 0.007016570951209575, -0.004950912559824351, 0.0008716465990379225],
    [1.0, -0.21808821808792464, 0.4125429727254421, -0.08418911478731067, 0.06553388564002416,
    -0.012001960445494177, 0.00408165558926174, -0.0006159007215577697]⟩

/-- the error function for `0 ≤ z < 1/2` -/
def erfNearZero (z : Float) : Float :=
  if z < 1e-10 then z * 1.125 + z * 0.0033791670955125737
  else z * 1.125 + erfQuotient.evalTimes z z

/-! ## From a half on -/

/-- a piece of the line, and the factor of `e^(-z²) / z` there by the distance from its start -/
structure TailPiece where
  start : Float
  stop : Float
  base : Float
  rest : Quotient

/-- the pieces from a half on, in order -/
def tailPieces : List TailPiece := [
  { start := 0.5, stop := 0.75, base := 0.3440242112
    rest := ⟨[-0.03617903907182625, 0.2922518834448827, 0.2814470417976045, 0.12561020886276694,
      0.027413502826893053, 0.0025083967216806575],
      [1.0, 1.8545005897903486, 1.4357580303783142, 0.5828276587530365, 0.12481047693294975,
      0.011372417654635328]⟩ },
  { start := 0.75, stop := 1.25, base := 0.419990927
    rest := ⟨[-0.03978768926111369, 0.1531652124678783, 0.19126029560093624, 0.10276327061989304,
      0.029637090615738836, 0.004609348678027549, 0.0003076078203486802],
      [1.0, 1.955200729876277, 1.6476231719938486, 0.7682386070221262, 0.20979318593650978,
      0.031956931689991336, 0.0021336316089578537]⟩ },
  { start := 1.25, stop := 2.25, base := 0.4898625016
    rest := ⟨[-0.030083856055794972, 0.05385788298444545, 0.07262115416519142,
      0.036762846988804936, 0.009646290155725275, 0.0013345348007529107, 7.780875997825043e-5],
      [1.0, 1.7596709814716753, 1.3288357143796112, 0.5525285965087576, 0.13379305694133287,
      0.017950964517628076, 0.0010471244001993736, -1.0664038182035734e-8]⟩ },
  { start := 2.25, stop := 3.5, base := 0.5317370892
    rest := ⟨[-0.011790757013722784, 0.01426213209053881, 0.020223443590296084,
      0.009306682999904321, 0.00213357802422066, 0.00025022987386460105, 1.2053491221958819e-5],
      [1.0, 1.5037622520362048, 0.9653977862044629, 0.3392652304767967, 0.06897406495415698,
      0.007710602624917683, 0.0003714211015310693]⟩ },
  { start := 3.5, stop := 5.25, base := 0.5489973426
    rest := ⟨[-0.005469547955387293, 0.004041902787317071, 0.005496336955316117,
      0.002126164726039454, 0.0003949840144950839, 3.655654770644424e-5, 1.3548589710993232e-6],
      [1.0, 1.2101969777363077, 0.6209146682211439, 0.17303843066114277, 0.027655081377343203,
      0.0024062597442430973, 8.918118172513365e-5, -4.655288362833827e-12]⟩ },
  { start := 5.25, stop := 8.0, base := 0.5571740866
    rest := ⟨[-0.0027072253590577837, 0.00131875634250294, 0.0011992593326100233,
      0.00027849619811344664, 2.6782298821833186e-5, 9.230436723150282e-7],
      [1.0, 0.8146328085431416, 0.26890166585629954, 0.044987721610304114, 0.0038175966332024847,
      0.00013157189788859692, 4.048153596757641e-12]⟩ },
  { start := 8.0, stop := 11.5, base := 0.5609807968
    rest := ⟨[-0.001099467206917422, 0.00040642544275042267, 0.0002744994894169007,
      4.652937706466594e-5, 3.2095542539576746e-6, 7.782860181450209e-8],
      [1.0, 0.5881737106118461, 0.13936333128940975, 0.016632934041708368, 0.0010002392131023491,
      2.4254837521587224e-5]⟩ },
  { start := 11.5, stop := 17.0, base := 0.5626493692
    rest := ⟨[-0.0005690799360109496, 0.00016949854037376225, 5.184723545811009e-5,
      3.8281931223192885e-6, 8.249899312818944e-8],
      [1.0, 0.33963725005113937, 0.04347264787031066, 0.002485493352246371, 5.356333053371529e-5,
      -1.1749094440545958e-13]⟩ },
  { start := 17.0, stop := 24.0, base := 0.5634598136
    rest := ⟨[-0.00024131359948399134, 5.742249752025015e-5, 1.1599896292738377e-5,
      5.817621344025938e-7, 8.539715550856736e-9],
      [1.0, 0.23304413829968784, 0.02041869405464403, 0.0007971856475643983, 1.1701928167017232e-5]⟩ },
  { start := 24.0, stop := 38.0, base := 0.5638477802
    rest := ⟨[-0.00014667469927776036, 1.6266655211228053e-5, 2.6911624850916523e-6,
      9.79584479468092e-8, 1.0199464762572346e-9],
      [1.0, 0.16590781294484722, 0.010336171619150588, 0.0002865930263738684, 2.9840157084090034e-6]⟩ },
  { start := 38.0, stop := 60.0, base := 0.5640528202
    rest := ⟨[-5.839057976297718e-5, 4.125103251054962e-6, 4.3179092242025094e-7,
      9.933651555900132e-9, 6.534805100201047e-11],
      [1.0, 0.10507708607203992, 0.004142784286754756, 7.263387546445238e-5, 4.778184710473988e-7]⟩ },
  { start := 60.0, stop := 85.0, base := 0.5641309023
    rest := ⟨[-1.9645779760922958e-5, 1.572438876668007e-6, 5.439025111927009e-8,
      3.174724923691177e-10],
      [1.0, 0.05280398924095763, 0.0009268760691517533, 5.410117232266303e-6, 5.350938458036424e-16]⟩ },
  { start := 85.0, stop := 110.0, base := 0.5641584396
    rest := ⟨[-7.892247039787227e-6, 6.22088451660987e-7, 1.457284456768824e-8,
      6.037155055427153e-11],
      [1.0, 0.03753288463562937, 0.0004679195359746253, 1.9384703927584565e-6]⟩ }
]

/-- the complementary error function for `1/2 ≤ z`; from the last piece on it is zero -/
def erfcTail (z : Float) : Float :=
  match tailPieces.find? (z < ·.stop) with
  | some piece =>
    let g := Float.exp (-z * z) / z
    g * piece.base + g * piece.rest.eval (z - piece.start)
  | none => 0.0

/-! ## The whole line -/

/-- the error function from zero on -/
def erfAbove (z : Float) : Float := if z < 0.5 then erfNearZero z else 1.0 - erfcTail z

/-- the complementary error function -/
def erfc (z : Float) : Float :=
  if z.isNaN then z
  else if z < -0.5 then 2.0 - erfcTail (-z)
  else if z < 0.0 then 1.0 + erfAbove (-z)
  else if z < 0.5 then 1.0 - erfNearZero z
  else erfcTail z

end Chance
