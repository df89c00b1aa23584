import CssColor.Conversion.Matrix

/-!
# The matrices of the colour spaces

Each linear RGB space has a matrix to XYZ and one back, and so have the cone responses of OKLab. XYZ
is relative to the white point D65 where nothing else is said.
-/

namespace CssColor.Matrix3

variable {K : Type} [Number K]

/-- Linear sRGB to XYZ. -/
def srgbToXyz : Matrix3 K := ⟨⟨
  ⟨506752.0 / 1228815.0, 87881.0 / 245763.0, 12673.0 / 70218.0⟩,
  ⟨87098.0 / 409605.0, 175762.0 / 245763.0, 12673.0 / 175545.0⟩,
  ⟨7918.0 / 409605.0, 87881.0 / 737289.0, 1001167.0 / 1053270.0⟩⟩⟩

/-- XYZ to linear sRGB. -/
def xyzToSrgb : Matrix3 K := ⟨⟨
  ⟨12831.0 / 3959.0, -329.0 / 214.0, -1974.0 / 3959.0⟩,
  ⟨-851781.0 / 878810.0, 1648619.0 / 878810.0, 36519.0 / 878810.0⟩,
  ⟨705.0 / 12673.0, -2585.0 / 12673.0, 705.0 / 667.0⟩⟩⟩

/-- Linear display-p3 to XYZ. -/
def p3ToXyz : Matrix3 K := ⟨⟨
  ⟨608311.0 / 1250200.0, 189793.0 / 714400.0, 198249.0 / 1000160.0⟩,
  ⟨35783.0 / 156275.0, 247089.0 / 357200.0, 198249.0 / 2500400.0⟩,
  ⟨0.0, 32229.0 / 714400.0, 5220557.0 / 5000800.0⟩⟩⟩

/-- XYZ to linear display-p3. -/
def xyzToP3 : Matrix3 K := ⟨⟨
  ⟨446124.0 / 178915.0, -333277.0 / 357830.0, -72051.0 / 178915.0⟩,
  ⟨-14852.0 / 17905.0, 63121.0 / 35810.0, 423.0 / 17905.0⟩,
  ⟨11844.0 / 330415.0, -50337.0 / 660830.0, 316169.0 / 330415.0⟩⟩⟩

/-- Linear a98-rgb to XYZ. -/
def a98ToXyz : Matrix3 K := ⟨⟨
  ⟨573536.0 / 994567.0, 263643.0 / 1420810.0, 187206.0 / 994567.0⟩,
  ⟨591459.0 / 1989134.0, 6239551.0 / 9945670.0, 374412.0 / 4972835.0⟩,
  ⟨53769.0 / 1989134.0, 351524.0 / 4972835.0, 4929758.0 / 4972835.0⟩⟩⟩

/-- XYZ to linear a98-rgb. -/
def xyzToA98 : Matrix3 K := ⟨⟨
  ⟨1829569.0 / 896150.0, -506331.0 / 896150.0, -308931.0 / 896150.0⟩,
  ⟨-851781.0 / 878810.0, 1648619.0 / 878810.0, 36519.0 / 878810.0⟩,
  ⟨16779.0 / 1248040.0, -147721.0 / 1248040.0, 1266979.0 / 1248040.0⟩⟩⟩

/-- Linear rec2020 to XYZ. -/
def rec2020ToXyz : Matrix3 K := ⟨⟨
  ⟨63426534.0 / 99577255.0, 20160776.0 / 139408157.0, 47086771.0 / 278816314.0⟩,
  ⟨26158966.0 / 99577255.0, 472592308.0 / 697040785.0, 8267143.0 / 139408157.0⟩,
  ⟨0.0, 19567812.0 / 697040785.0, 295819943.0 / 278816314.0⟩⟩⟩

/-- XYZ to linear rec2020. -/
def xyzToRec2020 : Matrix3 K := ⟨⟨
  ⟨30757411.0 / 17917100.0, -6372589.0 / 17917100.0, -4539589.0 / 17917100.0⟩,
  ⟨-19765991.0 / 29648200.0, 47925759.0 / 29648200.0, 467509.0 / 29648200.0⟩,
  ⟨792561.0 / 44930125.0, -1921689.0 / 44930125.0, 42328811.0 / 44930125.0⟩⟩⟩

/-- Linear prophoto-rgb to XYZ relative to D50. -/
def prophotoToXyzD50 : Matrix3 K := ⟨⟨
  ⟨0.7977666449006423, 0.13518129740053308, 0.0313477341283922⟩,
  ⟨0.2880748288194013, 0.711835234241873, 0.00008993693872564⟩,
  ⟨0.0, 0.0, 0.8251046025104602⟩⟩⟩

/-- XYZ relative to D50 to linear prophoto-rgb. -/
def xyzD50ToProphoto : Matrix3 K := ⟨⟨
  ⟨1.3457868816471583, -0.25557208737979464, -0.05110186497554526⟩,
  ⟨-0.5446307051249019, 1.5082477428451468, 0.02052744743642139⟩,
  ⟨0.0, 0.0, 1.2119675456389452⟩⟩⟩

/-- The Bradford adaptation of XYZ from D65 to D50. -/
def d65ToD50 : Matrix3 K := ⟨⟨
  ⟨1.0479297925449969, 0.022946870601609652, -0.05019226628920524⟩,
  ⟨0.02962780877005599, 0.9904344267538799, -0.017073799063418826⟩,
  ⟨-0.009243040646204504, 0.015055191490298152, 0.7518742814281371⟩⟩⟩

/-- XYZ to the cone responses of OKLab. -/
def xyzToLms : Matrix3 K := ⟨⟨
  ⟨0.819022437996703, 0.3619062600528904, -0.1288737815209879⟩,
  ⟨0.0329836539323885, 0.9292868615863434, 0.0361446663506424⟩,
  ⟨0.0481771893596242, 0.2642395317527308, 0.6335478284694309⟩⟩⟩

/-- The cube roots of the cone responses to OKLab. -/
def lmsToOklab : Matrix3 K := ⟨⟨
  ⟨0.210454268309314, 0.7936177747023054, -0.0040720430116193⟩,
  ⟨1.9779985324311684, -2.42859224204858, 0.450593709617411⟩,
  ⟨0.0259040424655478, 0.7827717124575296, -0.8086757549230774⟩⟩⟩

/-- OKLab to the cube roots of the cone responses. -/
def oklabToLms : Matrix3 K := ⟨⟨
  ⟨1.0, 0.3963377773761749, 0.2158037573099136⟩,
  ⟨1.0, -0.1055613458156586, -0.0638541728258133⟩,
  ⟨1.0, -0.0894841775298119, -1.2914855480194092⟩⟩⟩

/-- The cone responses of OKLab to XYZ. -/
def lmsToXyz : Matrix3 K := ⟨⟨
  ⟨1.2268798758459243, -0.5578149944602171, 0.2813910456659647⟩,
  ⟨-0.0405757452148008, 1.112286803280317, -0.0717110580655164⟩,
  ⟨-0.0763729366746601, -0.4214933324022432, 1.5869240198367816⟩⟩⟩

/-- The adaptation of XYZ from D50 back to D65. -/
def d50ToD65 : Matrix3 K := inverse d65ToD50

/-- The white point D50. -/
def d50White : Triple K := ⟨0.3457 / 0.3585, 1.0, (1.0 - 0.3457 - 0.3585) / 0.3585⟩

/-- The white point D65. -/
def d65White : Triple K := ⟨0.3127 / 0.3290, 1.0, (1.0 - 0.3127 - 0.3290) / 0.3290⟩

end CssColor.Matrix3
