import Sema.Automaton.Row

/-!
# Rows for expressions

The states in which the parser stands in an expression.
Every tenth row has the number of its state above it.
-/

namespace Sema.Automaton

/-- The rows of states 98 to 152. -/
def expressions : List Row :=
  [
    ⟨[], [], some .expr⟩,
    ⟨[(.equal, 113), (.lpar, 114)], [], some .name⟩,
    -- 100
    ⟨[(.or, 115)], [], some .assignNone⟩,
    ⟨[(.and, 116)], [], some (.operand .or)⟩,
    ⟨[(.eq, 117), (.ne, 118)], [], some (.operand .and)⟩,
    ⟨[(.lt, 119), (.le, 120), (.gt, 121), (.ge, 122)], [], some (.operand .equality)⟩,
    ⟨[(.plus, 123), (.minus, 124)], [], some (.operand .relation)⟩,
    ⟨[(.star, 125), (.slash, 126)], [], some (.operand .sum)⟩,
    ⟨[], [], some (.operand .product)⟩,
    ⟨[(.bang, 107), (.intLit, 109), (.floatLit, 110), (.stringLit, 111), (.name, 128),
      (.lpar, 112)], [(.unary, 127), (.atom, 108)], none⟩,
    ⟨[], [], some .unaryAtom⟩,
    ⟨[], [], some .intLit⟩,
    -- 110
    ⟨[], [], some .floatLit⟩,
    ⟨[], [], some .stringLit⟩,
    ⟨[(.name, 99), (.bang, 107), (.intLit, 109), (.floatLit, 110), (.stringLit, 111),
      (.lpar, 112)],
      [(.expr, 129), (.assign, 98), (.orExpr, 100), (.andExpr, 101), (.eqExpr, 102),
      (.relExpr, 103), (.addExpr, 104), (.mulExpr, 105), (.unary, 106), (.atom, 108)], none⟩,
    ⟨[(.name, 99), (.bang, 107), (.intLit, 109), (.floatLit, 110), (.stringLit, 111),
      (.lpar, 112)],
      [(.assign, 130), (.orExpr, 100), (.andExpr, 101), (.eqExpr, 102), (.relExpr, 103),
      (.addExpr, 104), (.mulExpr, 105), (.unary, 106), (.atom, 108)], none⟩,
    ⟨[(.rpar, 132), (.name, 99), (.bang, 107), (.intLit, 109), (.floatLit, 110),
      (.stringLit, 111), (.lpar, 112)],
      [(.args, 131), (.expr, 133), (.assign, 98), (.orExpr, 100), (.andExpr, 101),
      (.eqExpr, 102), (.relExpr, 103), (.addExpr, 104), (.mulExpr, 105), (.unary, 106),
      (.atom, 108)], none⟩,
    ⟨[(.bang, 107), (.intLit, 109), (.floatLit, 110), (.stringLit, 111), (.name, 128),
      (.lpar, 112)],
      [(.andExpr, 134), (.eqExpr, 102), (.relExpr, 103), (.addExpr, 104), (.mulExpr, 105),
      (.unary, 106), (.atom, 108)], none⟩,
    ⟨[(.bang, 107), (.intLit, 109), (.floatLit, 110), (.stringLit, 111), (.name, 128),
      (.lpar, 112)],
      [(.eqExpr, 135), (.relExpr, 103), (.addExpr, 104), (.mulExpr, 105), (.unary, 106),
      (.atom, 108)], none⟩,
    ⟨[(.bang, 107), (.intLit, 109), (.floatLit, 110), (.stringLit, 111), (.name, 128),
      (.lpar, 112)],
      [(.relExpr, 136), (.addExpr, 104), (.mulExpr, 105), (.unary, 106), (.atom, 108)], none⟩,
    ⟨[(.bang, 107), (.intLit, 109), (.floatLit, 110), (.stringLit, 111), (.name, 128),
      (.lpar, 112)],
      [(.relExpr, 137), (.addExpr, 104), (.mulExpr, 105), (.unary, 106), (.atom, 108)], none⟩,
    ⟨[(.bang, 107), (.intLit, 109), (.floatLit, 110), (.stringLit, 111), (.name, 128),
      (.lpar, 112)], [(.addExpr, 138), (.mulExpr, 105), (.unary, 106), (.atom, 108)], none⟩,
    -- 120
    ⟨[(.bang, 107), (.intLit, 109), (.floatLit, 110), (.stringLit, 111), (.name, 128),
      (.lpar, 112)], [(.addExpr, 139), (.mulExpr, 105), (.unary, 106), (.atom, 108)], none⟩,
    ⟨[(.bang, 107), (.intLit, 109), (.floatLit, 110), (.stringLit, 111), (.name, 128),
      (.lpar, 112)], [(.addExpr, 140), (.mulExpr, 105), (.unary, 106), (.atom, 108)], none⟩,
    ⟨[(.bang, 107), (.intLit, 109), (.floatLit, 110), (.stringLit, 111), (.name, 128),
      (.lpar, 112)], [(.addExpr, 141), (.mulExpr, 105), (.unary, 106), (.atom, 108)], none⟩,
    ⟨[(.bang, 107), (.intLit, 109), (.floatLit, 110), (.stringLit, 111), (.name, 128),
      (.lpar, 112)], [(.mulExpr, 142), (.unary, 106), (.atom, 108)], none⟩,
    ⟨[(.bang, 107), (.intLit, 109), (.floatLit, 110), (.stringLit, 111), (.name, 128),
      (.lpar, 112)], [(.mulExpr, 143), (.unary, 106), (.atom, 108)], none⟩,
    ⟨[(.bang, 107), (.intLit, 109), (.floatLit, 110), (.stringLit, 111), (.name, 128),
      (.lpar, 112)], [(.unary, 144), (.atom, 108)], none⟩,
    ⟨[(.bang, 107), (.intLit, 109), (.floatLit, 110), (.stringLit, 111), (.name, 128),
      (.lpar, 112)], [(.unary, 145), (.atom, 108)], none⟩,
    ⟨[], [], some .unaryNot⟩,
    ⟨[(.lpar, 114)], [], some .name⟩,
    ⟨[(.rpar, 146)], [], none⟩,
    -- 130
    ⟨[], [], some .assignTo⟩,
    ⟨[(.rpar, 147)], [], none⟩,
    ⟨[], [], some .callEmpty⟩,
    ⟨[(.comma, 149)], [(.argTail, 148)], some .argsOne⟩,
    ⟨[(.and, 116)], [], some (.binary .or)⟩,
    ⟨[(.eq, 117), (.ne, 118)], [], some (.binary .and)⟩,
    ⟨[(.lt, 119), (.le, 120), (.gt, 121), (.ge, 122)], [], some (.binary .eq)⟩,
    ⟨[(.lt, 119), (.le, 120), (.gt, 121), (.ge, 122)], [], some (.binary .ne)⟩,
    ⟨[(.plus, 123), (.minus, 124)], [], some (.binary .lt)⟩,
    ⟨[(.plus, 123), (.minus, 124)], [], some (.binary .le)⟩,
    -- 140
    ⟨[(.plus, 123), (.minus, 124)], [], some (.binary .gt)⟩,
    ⟨[(.plus, 123), (.minus, 124)], [], some (.binary .ge)⟩,
    ⟨[(.star, 125), (.slash, 126)], [], some (.binary .add)⟩,
    ⟨[(.star, 125), (.slash, 126)], [], some (.binary .sub)⟩,
    ⟨[], [], some (.binary .mul)⟩,
    ⟨[], [], some (.binary .div)⟩,
    ⟨[], [], some .paren⟩,
    ⟨[], [], some .callArgs⟩,
    ⟨[(.comma, 150)], [], some .argsMany⟩,
    ⟨[(.name, 99), (.bang, 107), (.intLit, 109), (.floatLit, 110), (.stringLit, 111),
      (.lpar, 112)],
      [(.expr, 151), (.assign, 98), (.orExpr, 100), (.andExpr, 101), (.eqExpr, 102),
      (.relExpr, 103), (.addExpr, 104), (.mulExpr, 105), (.unary, 106), (.atom, 108)], none⟩,
    -- 150
    ⟨[(.name, 99), (.bang, 107), (.intLit, 109), (.floatLit, 110), (.stringLit, 111),
      (.lpar, 112)],
      [(.expr, 152), (.assign, 98), (.orExpr, 100), (.andExpr, 101), (.eqExpr, 102),
      (.relExpr, 103), (.addExpr, 104), (.mulExpr, 105), (.unary, 106), (.atom, 108)], none⟩,
    ⟨[], [], some .argTailFirst⟩,
    ⟨[], [], some .argTailMore⟩]

end Sema.Automaton
