/-
  The program that is run where none is given.
-/

namespace MiniLang

/-- A recursive factorial and a sum by a loop. -/
def demoProgram : String :=
  "// Demo program for the mini interpreter\n"
    ++ "// Factorial using recursion, plus loops, conditionals, and print\n"
    ++ "\n"
    ++ "func fact(n) \x7b\n"
    ++ "    if (n == 0) \x7b\n"
    ++ "        return 1;\n"
    ++ "    \x7d else \x7b\n"
    ++ "        return n * fact(n - 1);\n"
    ++ "    \x7d\n"
    ++ "\x7d\n"
    ++ "\n"
    ++ "x = 7;\n"
    ++ "y = fact(x);\n"
    ++ "print(y);\n"
    ++ "\n"
    ++ "// iterative sum\n"
    ++ "func sumN(n) \x7b\n"
    ++ "    i = 0;\n"
    ++ "    acc = 0;\n"
    ++ "    while (i < n) \x7b\n"
    ++ "        i = i + 1;\n"
    ++ "        acc = acc + i;\n"
    ++ "    \x7d\n"
    ++ "    return acc;\n"
    ++ "\x7d\n"
    ++ "\n"
    ++ "print(sumN(10));\n"

end MiniLang
