import LineBasic.Text.Bytes

/-!
# The banner

The version is shown on a line of its own, in the middle of a window that is wide enough.

## Main definitions

* `Banner.line` — the line that shows the version
-/

namespace LineBasic.Banner

/-- The narrowest window in which the banner is centred. -/
def minColumns : Int := 40

/-- The name, the version and, if it is known, the time it was built. -/
def text (built : Bytes) : Bytes :=
  utf8 "APPLESOFT BASIC version 1.0.0"
    ++ (if built.isEmpty then [] else utf8 " - built " ++ built)

/-- The line that shows the version in a window of the given width. -/
def line (columns : Int) (built : Bytes) : Bytes :=
  let banner := text built
  let margin :=
    if minColumns ≤ columns then ((columns - banner.length).tdiv 2).toNat else 0
  List.replicate margin 0x20 ++ banner ++ [0x0a]

end LineBasic.Banner
