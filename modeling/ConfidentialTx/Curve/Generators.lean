import ConfidentialTx.Curve.Jacobian

namespace ConfidentialTx.Generator

def base : Point :=
  .affine 0x79be667ef9dcbbac55a06295ce870b07029bfcdb2dce28d959f2815b16f81798
    0x483ada7726a3c4655da4fbfc0e1108a8fd17b448a68554199c47d08ffb10d4b8

def value : Point :=
  .affine 0x50929b74c1a04954b78b4b6035e97a5e078a5a0f28ec96d547bfee9ace803ac0
    0x31d3c6863973926e049e637cb1b5f40a36dac28af1766968c30c2313f3a38904

def switch : Point :=
  .affine 0x2fa43aa49c3e4e76a580b043fc1f0ce0fa169749c43aa4126b47dbf7e05d3473
    0x744c482d4d85022bcf6d53ff7e1c84359193cf5c913fa276dc90707335b72212

end ConfidentialTx.Generator
