import TrackLayout.Binary64
import TrackLayout.Scalar

/-!
# Length of a hypotenuse

Squares of very long or very short legs leave the range of `Float`; such legs
are scaled by a power of two first. An infinite leg gives an infinite length
even beside a leg that is not a number.

How exact a hypotenuse is differs between platforms. The formula here is one
choice of many, and results about all networks use no more of it than three
laws that every other choice has too: the signs of the legs do not matter
(`SameSize.hypot`), legs of at most `2^21` give a length of at most `2^22`
(`inside_hypot`), and a length that is a number is not below zero
(`amount_hypot`). The value itself is only met where a fixed network is
evaluated.
-/
set_option autoImplicit false

namespace TrackLayout.Binary64

/-- Legs above this length are shrunk before they are squared. -/
def longLeg : Float := nearest false 1 500

/-- Legs below this length are stretched before they are squared. -/
def shortLeg : Float := nearest false 1 (-400)

def stretch : Float := nearest false 1 600

def shrink : Float := nearest false 1 (-600)

def hypot (x y : Float) : Float :=
  if x.isInf || y.isInf then infinity
  else
    let longest := maximum x.abs y.abs
    let root (x y : Float) := Float.sqrt (x * x + y * y)
    if longLeg < longest then root (x * shrink) (y * shrink) * stretch
    else if longest < shortLeg then root (x * stretch) (y * stretch) * shrink
    else root x y

end TrackLayout.Binary64

namespace TrackLayout

instance : Scalar Float where
  below a b := a < b
  isZero a := a == 0.0
  isUndefined := Float.isNaN
  abs := Float.abs
  larger := Binary64.maximum
  hypot := Binary64.hypot

end TrackLayout
