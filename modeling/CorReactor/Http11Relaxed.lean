import CorReactor.Http11Grammar
import CorReactor.RagelAgree

set_option autoImplicit false

/-! What `uri_relaxed` does to the grammar. -/

namespace CorReactor.Http11

open Ragel.Expr (Alike)

/-- The characters of `more_delims`. -/
def conditional (c : UInt8) : Bool := oneIn "\x7b\x7d^" c

/-- The rules differ in these characters only. -/
abbrev Same (e f : Grammar) : Prop := Alike (fun c => conditional c = false) e f

section Rules

variable (r s : Bool)

theorem subDelims_same : Same (.chars (subDelims r)) (.chars (subDelims s)) := by
  refine .chars fun c plain => ?_
  have never : ∀ b, moreDelims b c = false := by
    intro b
    rw [conditional] at plain
    rw [moreDelims, plain, Bool.false_and]
  rw [subDelims, subDelims, never, never]

theorem pchar_same : Same (pchar r) (pchar s) :=
  .oneOf (.cons (.refl _) (.cons (.refl _) (.cons (subDelims_same r s)
    (.cons (.refl _) (.cons (.refl _) .nil)))))

theorem pcharOr_same : Same (.star (Ragel.Expr.oneOf [pchar r, lit "/", lit "?"]))
    (.star (Ragel.Expr.oneOf [pchar s, lit "/", lit "?"])) :=
  .star (.oneOf (.cons (pchar_same r s) (.cons (.refl _) (.cons (.refl _) .nil))))

theorem segment_same : Same (segment r) (segment s) := .star (pchar_same r s)

/-- `("/" segment)*`. -/
theorem segments_same : Same (.star (Ragel.Expr.seq [lit "/", segment r]))
    (.star (Ragel.Expr.seq [lit "/", segment s])) :=
  .star (.seq (.cons (.refl _) (.cons (segment_same r s) .nil)))

theorem segmentNz_same : Same (segmentNz r) (segmentNz s) := .plus (pchar_same r s)

theorem pathRootless_same : Same (pathRootless r) (pathRootless s) :=
  .seq (.cons (segmentNz_same r s) (.cons (segments_same r s) .nil))

theorem segmentNzNc_same : Same (segmentNzNc r) (segmentNzNc s) :=
  .plus (.oneOf (.cons (.refl _) (.cons (.refl _) (.cons (subDelims_same r s)
    (.cons (.refl _) .nil)))))

theorem pathNoscheme_same : Same (pathNoscheme r) (pathNoscheme s) :=
  .seq (.cons (segmentNzNc_same r s) (.cons (segments_same r s) .nil))

theorem pathAbsolute_same : Same (pathAbsolute r) (pathAbsolute s) :=
  .seq (.cons (.refl _) (.cons (.opt (pathRootless_same r s)) .nil))

theorem userinfo_same : Same (userinfo r) (userinfo s) :=
  .star (.oneOf (.cons (.refl _) (.cons (.refl _) (.cons (subDelims_same r s)
    (.cons (.refl _) .nil)))))

theorem regName_same : Same (regName r) (regName s) :=
  .star (.oneOf (.cons (.refl _) (.cons (.refl _) (.cons (subDelims_same r s) .nil))))

theorem ipvFuture_same : Same (ipvFuture r) (ipvFuture s) :=
  .seq (.cons (.refl _) (.cons (.refl _) (.cons (.refl _)
    (.cons (.plus (.oneOf (.cons (.refl _) (.cons (subDelims_same r s) (.cons (.refl _) .nil)))))
      .nil))))

theorem ipLiteral_same : Same (ipLiteral r) (ipLiteral s) :=
  .seq (.cons (.refl _) (.cons (.oneOf (.cons (.refl _) (.cons (ipvFuture_same r s) .nil)))
    (.cons (.refl _) .nil)))

theorem host_same : Same (host r) (host s) :=
  .oneOf (.cons (ipLiteral_same r s) (.cons (.refl _) (.cons (regName_same r s) .nil)))

theorem authority_same : Same (authority r) (authority s) :=
  .seq (.cons (.opt (.seq (.cons (userinfo_same r s) (.cons (.refl _) .nil))))
    (.cons (host_same r s) (.cons (.refl _) .nil)))

theorem withAuthority_same :
    Same (Ragel.Expr.seq [lit "//", authority r, pathAbempty r])
      (Ragel.Expr.seq [lit "//", authority s, pathAbempty s]) :=
  .seq (.cons (.refl _) (.cons (authority_same r s) (.cons (segments_same r s) .nil)))

theorem relativePart_same : Same (relativePart r) (relativePart s) :=
  .oneOf (.cons (withAuthority_same r s) (.cons (pathAbsolute_same r s)
    (.cons (pathNoscheme_same r s) (.cons (.refl _) .nil))))

theorem hierPart_same : Same (hierPart r) (hierPart s) :=
  .oneOf (.cons (withAuthority_same r s) (.cons (pathAbsolute_same r s)
    (.cons (pathRootless_same r s) (.cons (.refl _) .nil))))

theorem target_same {part part' : Grammar} (same : Same part part') :
    Same (target r part) (target s part') :=
  .leave (.enter (.seq (.cons (.leave same)
    (.cons (.opt (.seq (.cons (.refl _) (.cons (.leave (pcharOr_same r s)) .nil)))) .nil))))

theorem fragmentPart_same : Same (fragmentPart r) (fragmentPart s) :=
  .opt (.seq (.cons (.refl _) (.cons (.leave (.enter (pcharOr_same r s))) .nil)))

theorem uriReference_same : Same (uriReference r) (uriReference s) :=
  .oneOf (.cons
    (.seq (.cons (.refl _) (.cons (.refl _) (.cons (target_same r s (hierPart_same r s))
      (.cons (fragmentPart_same r s) .nil)))))
    (.cons (.seq (.cons (target_same r s (relativePart_same r s))
      (.cons (fragmentPart_same r s) .nil))) .nil))

theorem request_same : Same (request r) (request s) :=
  .seq (.cons (.refl _) (.cons (.refl _) (.cons (uriReference_same r s) (.cons (.refl _)
    (.cons (.refl _) (.cons (.refl _) (.cons (.refl _) (.cons (.refl _) .nil))))))))

theorem socketJson_same : Same (socketJson r) (socketJson s) :=
  .seq (.cons (.leave (.enter (.seq (.cons (.refl _) (.cons (relativePart_same r s) .nil)))))
    (.cons (.refl _) (.cons (.refl _) .nil)))

/-- All of the grammar but these characters is the same. -/
theorem main_same : Same (main r) (main s) :=
  .finish (.oneOf (.cons (request_same r s)
    (.cons (.oneOf (.cons (.refl _) (.cons (socketJson_same r s) .nil))) .nil)))

end Rules

end CorReactor.Http11
